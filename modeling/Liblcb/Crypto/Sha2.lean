import Liblcb.Crypto.BlockHash
import Liblcb.Crypto.Words

/-!
# SHA-2

`crypto/hash/sha2.h`: the context, the two generic transforms, `sha2_update` and `sha2_final`.  The
hash of a context is an array of words, of 32 bits when blocks have 64 bytes and of 64 bits when they
have 128.
-/

namespace Sha2

open ByteMem BlockHash BlockStream Words

/-! ## Blocks -/

inductive BlockSize
  | b64
  | b128

namespace BlockSize

def size : BlockSize → Nat
  | b64 => 64
  | b128 => 128

/-- The bits of a word of the hash. -/
def width : BlockSize → Nat
  | b64 => 32
  | b128 => 64

/-- The bytes of a word of the hash. -/
def wordSize : BlockSize → Nat
  | b64 => 4
  | b128 => 8

end BlockSize

/-- A word of the hash. -/
abbrev Word (b : BlockSize) := BitVec b.width

/-- The state: eight words. -/
abbrev Hash (b : BlockSize) := Vector (Word b) 8

section Rounds

variable {w : Nat}

/-- `SHA2_ROTR32`, `SHA2_ROTR64` -/
def sha2Rotr (n : Nat) (v : BitVec w) : BitVec w := v >>> n ||| v <<< (w - n)

def sha2Ch (x y z : BitVec w) : BitVec w := (x &&& y) ||| (~~~x &&& z)
def sha2Maj (x y z : BitVec w) : BitVec w := (x &&& y) ||| (x &&& z) ||| (y &&& z)

/-- The functions and constants of a word size. -/
structure Rounds (w : Nat) where
  SIGMA0 : BitVec w → BitVec w
  SIGMA1 : BitVec w → BitVec w
  sigma0 : BitVec w → BitVec w
  sigma1 : BitVec w → BitVec w
  K : List (BitVec w)

/-- The word buffers. -/
structure Vars (w : Nat) where
  A : BitVec w
  B : BitVec w
  C : BitVec w
  D : BitVec w
  E : BitVec w
  F : BitVec w
  G : BitVec w
  H : BitVec w

def sha2W (r : Rounds w) (first : List (BitVec w)) : List (BitVec w) :=
  (List.range' 16 (r.K.length - 16)).foldl
    (fun W t => W ++ [r.sigma1 (W[t - 2]?.getD 0) + W[t - 7]?.getD 0 + r.sigma0 (W[t - 15]?.getD 0) +
      W[t - 16]?.getD 0])
    first

/-- The body of the loop over `t`. -/
def sha2Round (r : Rounds w) (W : List (BitVec w)) (v : Vars w) (t : Nat) : Vars w :=
  let temp1 := v.H + r.SIGMA1 v.E + sha2Ch v.E v.F v.G + r.K[t]?.getD 0 + W[t]?.getD 0
  let temp2 := r.SIGMA0 v.A + sha2Maj v.A v.B v.C
  { A := temp1 + temp2, B := v.A, C := v.B, D := v.C, E := v.D + temp1, F := v.E, G := v.F, H := v.G }

def sha2Rounds (r : Rounds w) (hash : Vector (BitVec w) 8) (first : List (BitVec w)) :
    Vector (BitVec w) 8 :=
  let v : Vars w := {
    A := hash[0]
    B := hash[1]
    C := hash[2]
    D := hash[3]
    E := hash[4]
    F := hash[5]
    G := hash[6]
    H := hash[7] }
  let v := (List.range r.K.length).foldl (sha2Round r (sha2W r first)) v
  #v[hash[0] + v.A, hash[1] + v.B, hash[2] + v.C, hash[3] + v.D, hash[4] + v.E, hash[5] + v.F,
    hash[6] + v.G, hash[7] + v.H]

end Rounds

/-! ## `sha2_transform_block64_generic` -/

def sha2SIGMA0of32 (v : BitVec 32) : BitVec 32 := sha2Rotr 2 v ^^^ sha2Rotr 13 v ^^^ sha2Rotr 22 v
def sha2SIGMA1of32 (v : BitVec 32) : BitVec 32 := sha2Rotr 6 v ^^^ sha2Rotr 11 v ^^^ sha2Rotr 25 v
def sha2sigma0of32 (v : BitVec 32) : BitVec 32 := sha2Rotr 7 v ^^^ sha2Rotr 18 v ^^^ v >>> 3
def sha2sigma1of32 (v : BitVec 32) : BitVec 32 := sha2Rotr 17 v ^^^ sha2Rotr 19 v ^^^ v >>> 10

def K32 : List (BitVec 32) := [
  0x428a2f98, 0x71374491, 0xb5c0fbcf, 0xe9b5dba5, 0x3956c25b, 0x59f111f1, 0x923f82a4, 0xab1c5ed5,
  0xd807aa98, 0x12835b01, 0x243185be, 0x550c7dc3, 0x72be5d74, 0x80deb1fe, 0x9bdc06a7, 0xc19bf174,
  0xe49b69c1, 0xefbe4786, 0x0fc19dc6, 0x240ca1cc, 0x2de92c6f, 0x4a7484aa, 0x5cb0a9dc, 0x76f988da,
  0x983e5152, 0xa831c66d, 0xb00327c8, 0xbf597fc7, 0xc6e00bf3, 0xd5a79147, 0x06ca6351, 0x14292967,
  0x27b70a85, 0x2e1b2138, 0x4d2c6dfc, 0x53380d13, 0x650a7354, 0x766a0abb, 0x81c2c92e, 0x92722c85,
  0xa2bfe8a1, 0xa81a664b, 0xc24b8b70, 0xc76c51a3, 0xd192e819, 0xd6990624, 0xf40e3585, 0x106aa070,
  0x19a4c116, 0x1e376c08, 0x2748774c, 0x34b0bcb5, 0x391c0cb3, 0x4ed8aa4a, 0x5b9cca4f, 0x682e6ff3,
  0x748f82ee, 0x78a5636f, 0x84c87814, 0x8cc70208, 0x90befffa, 0xa4506ceb, 0xbef9a3f7, 0xc67178f2]

def rounds32 : Rounds 32 where
  SIGMA0 := sha2SIGMA0of32
  SIGMA1 := sha2SIGMA1of32
  sigma0 := sha2sigma0of32
  sigma1 := sha2sigma1of32
  K := K32

/-- `sha2_transform_block64_generic` for one block. -/
def sha2Block64 (hash : Vector (BitVec 32) 8) (block : List Byte) : Vector (BitVec 32) 8 :=
  sha2Rounds rounds32 hash ((List.range 16).map (wordAt (memcpyBswap 4 block)))

/-! ## `sha2_transform_block128_generic` -/

def sha2SIGMA0of64 (v : BitVec 64) : BitVec 64 := sha2Rotr 28 v ^^^ sha2Rotr 34 v ^^^ sha2Rotr 39 v
def sha2SIGMA1of64 (v : BitVec 64) : BitVec 64 := sha2Rotr 14 v ^^^ sha2Rotr 18 v ^^^ sha2Rotr 41 v
def sha2sigma0of64 (v : BitVec 64) : BitVec 64 := sha2Rotr 1 v ^^^ sha2Rotr 8 v ^^^ v >>> 7
def sha2sigma1of64 (v : BitVec 64) : BitVec 64 := sha2Rotr 19 v ^^^ sha2Rotr 61 v ^^^ v >>> 6

def K64 : List (BitVec 64) := [
  0x428a2f98d728ae22, 0x7137449123ef65cd, 0xb5c0fbcfec4d3b2f, 0xe9b5dba58189dbbc,
  0x3956c25bf348b538, 0x59f111f1b605d019, 0x923f82a4af194f9b, 0xab1c5ed5da6d8118,
  0xd807aa98a3030242, 0x12835b0145706fbe, 0x243185be4ee4b28c, 0x550c7dc3d5ffb4e2,
  0x72be5d74f27b896f, 0x80deb1fe3b1696b1, 0x9bdc06a725c71235, 0xc19bf174cf692694,
  0xe49b69c19ef14ad2, 0xefbe4786384f25e3, 0x0fc19dc68b8cd5b5, 0x240ca1cc77ac9c65,
  0x2de92c6f592b0275, 0x4a7484aa6ea6e483, 0x5cb0a9dcbd41fbd4, 0x76f988da831153b5,
  0x983e5152ee66dfab, 0xa831c66d2db43210, 0xb00327c898fb213f, 0xbf597fc7beef0ee4,
  0xc6e00bf33da88fc2, 0xd5a79147930aa725, 0x06ca6351e003826f, 0x142929670a0e6e70,
  0x27b70a8546d22ffc, 0x2e1b21385c26c926, 0x4d2c6dfc5ac42aed, 0x53380d139d95b3df,
  0x650a73548baf63de, 0x766a0abb3c77b2a8, 0x81c2c92e47edaee6, 0x92722c851482353b,
  0xa2bfe8a14cf10364, 0xa81a664bbc423001, 0xc24b8b70d0f89791, 0xc76c51a30654be30,
  0xd192e819d6ef5218, 0xd69906245565a910, 0xf40e35855771202a, 0x106aa07032bbd1b8,
  0x19a4c116b8d2d0c8, 0x1e376c085141ab53, 0x2748774cdf8eeb99, 0x34b0bcb5e19b48a8,
  0x391c0cb3c5c95a63, 0x4ed8aa4ae3418acb, 0x5b9cca4f7763e373, 0x682e6ff3d6b2b8a3,
  0x748f82ee5defb2fc, 0x78a5636f43172f60, 0x84c87814a1f0ab72, 0x8cc702081a6439ec,
  0x90befffa23631e28, 0xa4506cebde82bde9, 0xbef9a3f7b2c67915, 0xc67178f2e372532b,
  0xca273eceea26619c, 0xd186b8c721c0c207, 0xeada7dd6cde0eb1e, 0xf57d4f7fee6ed178,
  0x06f067aa72176fba, 0x0a637dc5a2c898a6, 0x113f9804bef90dae, 0x1b710b35131c471b,
  0x28db77f523047d84, 0x32caab7b40c72493, 0x3c9ebe0a15c9bebc, 0x431d67c49c100d4c,
  0x4cc5d4becb3e42b6, 0x597f299cfc657e2a, 0x5fcb6fab3ad6faec, 0x6c44198c4a475817]

def rounds64 : Rounds 64 where
  SIGMA0 := sha2SIGMA0of64
  SIGMA1 := sha2SIGMA1of64
  sigma0 := sha2sigma0of64
  sigma1 := sha2sigma1of64
  K := K64

/-- Word `i` of a run of bytes. -/
def word64At (bs : List Byte) (i : Nat) : BitVec 64 := word 64 ((bs.drop (8 * i)).take 8)

/-- `sha2_transform_block128_generic` for one block. -/
def sha2Block128 (hash : Vector (BitVec 64) 8) (block : List Byte) : Vector (BitVec 64) 8 :=
  sha2Rounds rounds64 hash ((List.range 16).map (word64At (memcpyBswap 8 block)))

/-! ## The context -/

/-- The transform of a block of the size. -/
def sha2Block : (b : BlockSize) → Hash b → List Byte → Hash b
  | .b64 => sha2Block64
  | .b128 => sha2Block128

/-- `sha2_transform` with the generic transforms. -/
def sha2Transform (b : BlockSize) : Transform (Hash b) := fun s _ blocks =>
  (afterBlocks (sha2Block b) b.size (blocks.length / b.size) s.1 blocks, s.2)

/-- `sha2_ctx_t`; the input buffer has 128 bytes for both sizes. -/
structure Sha2Ctx (b : BlockSize) where
  hash : Hash b
  buffer : List Byte
  count : BitVec 64
  countHi : BitVec 64
  hashSize : Nat

/-- The functions of the family. -/
inductive Bits
  | sha224
  | sha256
  | sha384
  | sha512

namespace Bits

def block : Bits → BlockSize
  | sha224 => .b64
  | sha256 => .b64
  | sha384 => .b128
  | sha512 => .b128

def hashSize : Bits → Nat
  | sha224 => 28
  | sha256 => 32
  | sha384 => 48
  | sha512 => 64

/-- The initial hash values. -/
def H0 : (bits : Bits) → Hash bits.block
  | sha224 => (#v[
      0xc1059ed8, 0x367cd507, 0x3070dd17, 0xf70e5939,
      0xffc00b31, 0x68581511, 0x64f98fa7, 0xbefa4fa4] : Vector (BitVec 32) 8)
  | sha256 => (#v[
      0x6a09e667, 0xbb67ae85, 0x3c6ef372, 0xa54ff53a,
      0x510e527f, 0x9b05688c, 0x1f83d9ab, 0x5be0cd19] : Vector (BitVec 32) 8)
  | sha384 => (#v[
      0xcbbb9d5dc1059ed8, 0x629a292a367cd507, 0x9159015a3070dd17, 0x152fecd8f70e5939,
      0x67332667ffc00b31, 0x8eb44a8768581511, 0xdb0c2e0d64f98fa7, 0x47b5481dbefa4fa4] : Vector (BitVec 64) 8)
  | sha512 => (#v[
      0x6a09e667f3bcc908, 0xbb67ae8584caa73b, 0x3c6ef372fe94f82b, 0xa54ff53a5f1d36f1,
      0x510e527fade682d1, 0x9b05688c2b3e6c1f, 0x1f83d9abfb41bd6b, 0x5be0cd19137e2179] : Vector (BitVec 64) 8)

end Bits

def sha2Init (bits : Bits) (ctx : Sha2Ctx bits.block) : Sha2Ctx bits.block :=
  { ctx with
    hashSize := bits.hashSize
    hash := bits.H0
    count := 0
    countHi := 0 }

section Context

variable {b : BlockSize}

def sha2Update (ctx : Sha2Ctx b) (addr : Nat) (data : List Byte) : Sha2Ctx b :=
  if data.length = 0 then ctx
  else
    let bufferUsage := inBlock b.size ctx.count.toNat
    let count := ctx.count + BitVec.ofNat 64 data.length
    let countHi := if count < BitVec.ofNat 64 data.length then ctx.countHi + 1 else ctx.countHi
    let s := (updateBuffer b.size (sha2Transform b) (ctx.hash, ctx.buffer) bufferUsage addr data).1
    { ctx with
      count
      countHi
      hash := s.1
      buffer := s.2 }

def lenOff : BlockSize → Nat
  | .b64 => 64 - 8
  | .b128 => 128 - 16

/-- The length of the message as `sha2_final` stores it. -/
def lenBytes : (b : BlockSize) → (count countHi : BitVec 64) → List Byte
  | .b64, count, _ => bytes 8 (bswap64 (count <<< 3))
  | .b128, count, countHi =>
    bytes 8 (bswap64 (countHi <<< 3 ||| count >>> (64 - 3))) ++ bytes 8 (bswap64 (count <<< 3))

/-- The bytes of the hash in memory. -/
def hashBytes (hash : Hash b) : List Byte := hash.toList.flatMap (bytes b.wordSize)

/-- `sha2_final`: the digest. -/
def sha2Final (ctx : Sha2Ctx b) : List Byte :=
  let s := finalBuffer b.size (lenOff b) (sha2Transform b) (ctx.hash, ctx.buffer)
    (inBlock b.size ctx.count.toNat) (lenBytes b ctx.count ctx.countHi)
  memcpyBswap b.wordSize ((hashBytes s.1).take ctx.hashSize)

end Context

/-! ## The digest -/

/-- The bits of a message, in 8 or 16 bytes, the highest one first. -/
def bitLength : BlockSize → Nat → List Byte
  | .b64, len => (bytes 8 (BitVec.ofNat 64 (8 * len))).reverse
  | .b128, len => (bytes 16 (BitVec.ofNat 128 (8 * len))).reverse

/-- The digest of a message: the block transform over the padded message. -/
def sha2 (bits : Bits) (msg : List Byte) : List Byte :=
  let b := bits.block
  let hash := whole (sha2Block b) b.size bits.H0 (pad b.size (lenOff b) (bitLength b msg.length) msg)
  (hash.toList.flatMap fun v => (bytes b.wordSize v).reverse).take bits.hashSize

end Sha2

/-!
# SHA-2 of a message in chunks

The counter of a context has two words, so the length is the one of the message modulo `2^128`.
-/

namespace Sha2

open ByteMem BlockHash BlockStream Words

/-- The context of a message so far. -/
structure Taken (bits : Bits) (msg : List Byte) (ctx : Sha2Ctx bits.block) : Prop where
  holds : Holds (sha2Block bits.block) bits.block.size bits.H0 msg (ctx.hash, ctx.buffer)
  count : ctx.count = BitVec.ofNat 64 msg.length
  countHi : ctx.countHi = BitVec.ofNat 64 (msg.length / 2 ^ 64)
  hashSize : ctx.hashSize = bits.hashSize

variable {bits : Bits} {msg : List Byte} {ctx : Sha2Ctx bits.block}

/-- A block size is a power of two. -/
def BlockSize.log : BlockSize → Nat
  | .b64 => 6
  | .b128 => 7

theorem BlockSize.size_eq (b : BlockSize) : b.size = 2 ^ b.log := by
  cases b with
  | b64 => rfl
  | b128 => rfl

theorem BlockSize.log_le (b : BlockSize) : b.log ≤ 64 := by
  cases b with
  | b64 => decide
  | b128 => decide

theorem sha2Transform_runs (b : BlockSize) : Runs (sha2Block b) b.size (sha2Transform b) where
  state _ _ _ _ _ := rfl
  buffer _ _ _ _ _ := rfl

theorem Taken.init (hsize : ctx.buffer.length = 128) : Taken bits [] (sha2Init bits ctx) where
  holds := {
    state := by rw [whole_of_lt]; rfl; cases bits <;> decide
    buffer := by rw [List.length_nil, Nat.zero_mod, List.take_zero, rest, List.drop_nil]
    size := by
      rw [show (sha2Init bits ctx).buffer.length = 128 from hsize]
      cases bits <;> decide }
  count := rfl
  countHi := rfl
  hashSize := rfl

theorem Taken.usage (h : Taken bits msg ctx) :
    inBlock bits.block.size ctx.count.toNat = msg.length % bits.block.size := by
  rw [h.count, BlockSize.size_eq]
  exact inBlock_count (BlockSize.log_le _)

theorem carry_countHi {a n : Nat} (hn : n < 2 ^ 64) :
    (if BitVec.ofNat 64 a + BitVec.ofNat 64 n < BitVec.ofNat 64 n then
      BitVec.ofNat 64 (a / 2 ^ 64) + 1 else BitVec.ofNat 64 (a / 2 ^ 64)) =
        BitVec.ofNat 64 ((a + n) / 2 ^ 64) := by
  have hiff : BitVec.ofNat 64 a + BitVec.ofNat 64 n < BitVec.ofNat 64 n ↔ (a + n) % 2 ^ 64 < n := by
    rw [← BitVec.ofNat_add, BitVec.lt_def, BitVec.toNat_ofNat, BitVec.toNat_ofNat,
      Nat.mod_eq_of_lt hn]
  have hdiv := Nat.div_add_mod a (2 ^ 64)
  have hlt := Nat.mod_lt a (Nat.two_pow_pos 64)
  by_cases hcarry : a % 2 ^ 64 + n < 2 ^ 64
  · have hquot : (a + n) / 2 ^ 64 = a / 2 ^ 64 := by omega
    have hmod : (a + n) % 2 ^ 64 = a % 2 ^ 64 + n := by omega
    rw [if_neg (fun h => by rw [hiff] at h; omega), hquot]
  · have hquot : (a + n) / 2 ^ 64 = a / 2 ^ 64 + 1 := by omega
    have hmod : (a + n) % 2 ^ 64 < n := by omega
    rw [if_pos (hiff.mpr hmod), hquot, BitVec.ofNat_add]
    rfl

theorem Taken.update (h : Taken bits msg ctx) (c : Chunk) :
    Taken bits (msg ++ c.bytes) (sha2Update ctx c.addr c.bytes) := by
  unfold sha2Update
  by_cases hempty : c.bytes.length = 0
  · rw [if_pos hempty, List.eq_nil_of_length_eq_zero hempty, List.append_nil]
    exact h
  · rw [if_neg hempty]
    dsimp only
    rw [h.usage]
    have hruns := sha2Transform_runs bits.block
    have hholds := h.holds
    have hlog := BlockSize.log_le bits.block
    rw [BlockSize.size_eq] at hruns hholds
    have hnext := hholds.update hlog hruns c.addr c.fits
    rw [← BlockSize.size_eq] at hnext
    apply Taken.mk
    case holds => exact hnext.1
    case count => rw [h.count, List.length_append, BitVec.ofNat_add]
    case countHi => rw [h.count, h.countHi, carry_countHi c.fits, List.length_append]
    case hashSize => exact h.hashSize

theorem lenBytes_eq (b : BlockSize) (len : Nat) :
    lenBytes b (BitVec.ofNat 64 len) (BitVec.ofNat 64 (len / 2 ^ 64)) = bitLength b len := by
  cases b with
  | b64 => rw [lenBytes, bitLength, bytes_bswap64, shiftLeft_count]
  | b128 =>
    have hlow : bytes 8 (BitVec.ofNat 64 (8 * len)) = bytes 8 (BitVec.ofNat 128 (8 * len)) := by
      rw [← bytes_setWidth (u := 64) (by decide) (BitVec.ofNat 128 (8 * len)),
        BitVec.setWidth_ofNat_of_le (by decide)]
    have hhigh : BitVec.ofNat 64 (len / 2 ^ 64) <<< 3 ||| BitVec.ofNat 64 len >>> (64 - 3) =
        (BitVec.ofNat 128 (8 * len) >>> (8 * 8)).setWidth 64 := by
      rw [← BitVec.add_eq_or_of_and_eq_zero]
      · apply BitVec.eq_of_toNat_eq
        simp only [BitVec.toNat_add, BitVec.toNat_shiftLeft, BitVec.toNat_ushiftRight,
          BitVec.toNat_ofNat, BitVec.toNat_setWidth, Nat.shiftLeft_eq, Nat.shiftRight_eq_div_pow]
        omega
      · apply BitVec.eq_of_getLsbD_eq
        intro i hi
        simp only [BitVec.getLsbD_and, BitVec.getLsbD_shiftLeft, BitVec.getLsbD_ushiftRight,
          BitVec.getLsbD_zero]
        by_cases hlt : i < 3
        · simp [hlt]
        · rw [BitVec.getLsbD_of_ge (BitVec.ofNat 64 len) (64 - 3 + i) (by omega), Bool.and_false]
    rw [lenBytes, bitLength, bytes_bswap64, bytes_bswap64, hhigh, shiftLeft_count, hlow,
      bytes_setWidth (by decide), ← List.reverse_append, ← bytes_add]

theorem memcpyBswap_hashBytes (bits : Bits) (hash : Hash bits.block) :
    memcpyBswap bits.block.wordSize ((hashBytes hash).take bits.hashSize) =
      (hash.toList.flatMap fun v => (bytes bits.block.wordSize v).reverse).take bits.hashSize := by
  have hsplit : ∃ j, bits.hashSize = bits.block.wordSize * j := by
    cases bits with
    | sha224 => exact ⟨7, rfl⟩
    | sha256 => exact ⟨8, rfl⟩
    | sha384 => exact ⟨6, rfl⟩
    | sha512 => exact ⟨8, rfl⟩
  have hpos : 0 < bits.block.wordSize := by cases bits <;> decide
  obtain ⟨j, hj⟩ := hsplit
  rw [hj, hashBytes, take_flatMap (fun _ => length_bytes), memcpyBswap_flatMap hpos
    (fun _ => length_bytes), take_flatMap (fun _ => by rw [List.length_reverse, length_bytes])]

theorem Taken.final (h : Taken bits msg ctx) : sha2Final ctx = sha2 bits msg := by
  have hlen : lenOff bits.block + (bitLength bits.block msg.length).length = bits.block.size := by
    cases bits <;> simp [lenOff, bitLength, Bits.block, BlockSize.size]
  have hoff : lenOff bits.block < bits.block.size := by cases bits <;> decide
  unfold sha2Final sha2
  dsimp only
  rw [h.usage, h.count, h.countHi, lenBytes_eq, h.hashSize,
    h.holds.final (sha2Transform_runs _).takes hlen hoff, memcpyBswap_hashBytes]

theorem sha2_stream (hsize : ctx.buffer.length = 128) (chunks : List Chunk) :
    sha2Final (chunks.foldl (fun ctx c => sha2Update ctx c.addr c.bytes) (sha2Init bits ctx)) =
      sha2 bits (message chunks) := by
  have htaken := @foldl_message _ (Taken bits) (fun ctx c => sha2Update ctx c.addr c.bytes)
    (fun _ _ h c => h.update c) _ (Taken.init hsize) chunks
  exact htaken.final

end Sha2
