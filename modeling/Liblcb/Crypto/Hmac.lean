import Liblcb.Crypto.Md5
import Liblcb.Crypto.Sha1
import Liblcb.Crypto.Sha2
import Liblcb.Crypto.Gost3411
import Liblcb.Crypto.BlockHash

/-!
# The digest of a message in chunks

All hashes of `crypto/hash/`: what the final function returns is the digest of the whole message,
whatever its chunks are, where they are in memory, and what the context held before.
-/

namespace BlockHash

open ByteMem

theorem digest_of_chunks (chunks : List Chunk) :
    (∀ ctx : Md5.Md5Ctx, ctx.buffer.length = 64 →
      Md5.md5Final (chunks.foldl (fun ctx c => Md5.md5Update ctx c.addr c.bytes) (Md5.md5Init ctx)) =
        Md5.md5 (message chunks)) ∧
    (∀ ctx : Sha1.Sha1Ctx, ctx.buffer.length = 64 →
      Sha1.sha1Final
          (chunks.foldl (fun ctx c => Sha1.sha1Update ctx c.addr c.bytes) (Sha1.sha1Init ctx)) =
        Sha1.sha1 (message chunks)) ∧
    (∀ (bits : Sha2.Bits) (ctx : Sha2.Sha2Ctx bits.block), ctx.buffer.length = 128 →
      Sha2.sha2Final
          (chunks.foldl (fun ctx c => Sha2.sha2Update ctx c.addr c.bytes) (Sha2.sha2Init bits ctx)) =
        Sha2.sha2 bits (message chunks)) ∧
    ∀ (ax : Gost3411.Ax) (bits : Gost3411.Bits),
      Gost3411.gostFinal ax (chunks.foldl (fun ctx c => Gost3411.gostUpdate ax ctx c.addr c.bytes)
          (Gost3411.gostInit bits)) =
        Gost3411.gost3411 ax bits (message chunks) :=
  ⟨fun ctx hsize => Md5.md5_stream ctx hsize chunks,
    fun ctx hsize => Sha1.sha1_stream ctx hsize chunks,
    fun _ _ hsize => Sha2.sha2_stream hsize chunks,
    fun ax bits => Gost3411.gost3411_stream ax bits chunks⟩

/-- "abc" in two chunks, one of them at an odd address. -/
def abcChunks : List Chunk :=
  [{ addr := 1, bytes := [97], fits := by decide }, { addr := 8, bytes := [98, 99], fits := by decide }]

/-- A context with stale bytes in its buffer. -/
def staleMd5 : Md5.Md5Ctx where
  hash := #v[0, 0, 0, 0]
  count := 7
  buffer := List.replicate 64 0xff

theorem digest_of_chunks_abc :
    Md5.md5Final (abcChunks.foldl (fun ctx c => Md5.md5Update ctx c.addr c.bytes)
      (Md5.md5Init staleMd5)) = Md5.md5 [97, 98, 99] :=
  (digest_of_chunks abcChunks).1 staleMd5 rfl

end BlockHash

/-!
# HMAC

The headers of `crypto/hash/` have the same three functions for HMAC.  They are here for any hash
that is given by its functions on a context: the inner digest goes through the output of the caller,
and the hash is selected again by the size of its digest.
-/

namespace Hmac

open ByteMem BlockHash

/-- The functions of a hash that HMAC calls.  A number selects the hash; `cleared` is what the final
function leaves of a context, and `padSize` is the size of the arrays for the pads. -/
structure Fns (γ : Type) where
  init : Nat → γ → γ
  update : γ → Nat → List Byte → γ
  final : γ → List Byte
  cleared : γ → γ
  blockSize : γ → Nat
  hashSize : γ → Nat
  padSize : Nat

/-- `hmac_*_ctx_t` -/
structure Ctx (γ : Type) where
  ctx : γ
  kOpad : List Byte

/-- The XOR of a pad with a byte. -/
def xorPad (b : Byte) (pad : List Byte) : List Byte := pad.map (· ^^^ b)

section Functions

variable {γ : Type} (F : Fns γ)

/-- The body of `hmac_*_init`; `k_ipad` is at `ipad`. -/
def init (bits : Nat) (key : Chunk) (ipad : Nat) (hctx : Ctx γ) : Ctx γ :=
  let ctx := F.init bits hctx.ctx
  -- A key longer than a block is replaced by its digest.
  let (ctx, kIpad, i) :=
    if F.blockSize ctx < key.bytes.length then
      let ctx := F.update ctx key.addr key.bytes
      (F.init bits (F.cleared ctx), F.final ctx, F.hashSize ctx)
    else (ctx, key.bytes, key.bytes.length)
  let kIpad := kIpad ++ List.replicate (F.padSize - i) 0
  { ctx := F.update ctx ipad ((xorPad 0x36 kIpad).take (F.blockSize ctx))
    kOpad := xorPad 0x5c kIpad }

/-- The body of `hmac_*_update`. -/
def update (hctx : Ctx γ) (c : Chunk) : Ctx γ :=
  { hctx with ctx := F.update hctx.ctx c.addr c.bytes }

/-- The body of `hmac_*_final`: the size of the digest, and the memory with it at `digest`; `k_opad`
is at `opad`. -/
def final (hctx : Ctx γ) (opad digest : Nat) (m : Memory) : Nat × Memory :=
  let bits := F.hashSize hctx.ctx
  let m := write m digest (F.final hctx.ctx)
  let ctx := F.init bits (F.cleared hctx.ctx)
  let ctx := F.update ctx opad (hctx.kOpad.take (F.blockSize ctx))
  let ctx := F.update ctx digest (read m digest (F.hashSize ctx))
  (F.hashSize ctx, write m digest (F.final ctx))

end Functions

/-! ## The authentication code -/

section Code

variable (B : Nat) (H : List Byte → List Byte)

/-- The key, or its digest when it is longer than a block, with zeros up to a block. -/
def blockKey (key : List Byte) : List Byte :=
  let key := if B < key.length then H key else key
  key ++ List.replicate (B - key.length) 0

/-- `H(K0 ^ opad, H(K0 ^ ipad, message))` -/
def hmac (key msg : List Byte) : List Byte :=
  H (xorPad 0x5c (blockKey B H key) ++ H (xorPad 0x36 (blockKey B H key) ++ msg))

end Code

/-- The code is in the memory at `digest`, in `L` bytes, and nothing else was written. -/
structure Leaves (m : Memory) (digest L : Nat) (code : List Byte) (m' : Memory) : Prop where
  code : read m' digest L = code
  others : ∀ p n, p + n ≤ digest ∨ digest + L ≤ p → read m' p n = read m p n

/-- The functions, selected by `bits`, make the digest `H` of a message in chunks; `ok` is what the
contexts have in common. -/
structure Digests {γ : Type} (F : Fns γ) (ok : γ → Prop) (bits B L : Nat)
    (H : List Byte → List Byte) : Prop where
  stream : ∀ ctx, ok ctx → ∀ chunks : List Chunk,
    F.final (chunks.foldl (fun ctx c => F.update ctx c.addr c.bytes) (F.init bits ctx)) =
      H (message chunks)
  blockSize : ∀ ctx, F.blockSize (F.init bits ctx) = B
  hashSize : ∀ ctx, ok ctx → ∀ chunks : List Chunk,
    F.hashSize (chunks.foldl (fun ctx c => F.update ctx c.addr c.bytes) (F.init bits ctx)) = L
  cleared : ∀ ctx, ok ctx → ∀ chunks : List Chunk, ok (F.cleared
    (chunks.foldl (fun ctx c => F.update ctx c.addr c.bytes) (F.init bits ctx)))
  length : ∀ msg, (H msg).length = L
  sizes : L ≤ B ∧ B ≤ F.padSize ∧ F.padSize < 2 ^ 64

section Correct

variable {γ : Type} {F : Fns γ} {ok : γ → Prop} {bits B L : Nat} {H : List Byte → List Byte}

theorem length_xorPad (b : Byte) (pad : List Byte) : (xorPad b pad).length = pad.length :=
  List.length_map _

theorem length_blockKey (hlen : ∀ msg, (H msg).length ≤ B) (key : List Byte) :
    (blockKey B H key).length = B := by
  have hle : (if B < key.length then H key else key).length ≤ B := by
    split
    · exact hlen key
    next hshort => exact Nat.le_of_not_lt hshort
  rw [blockKey, List.length_append, List.length_replicate]
  omega

theorem take_xorPad {k : List Byte} {n : Nat} (b : Byte) (hk : k.length ≤ B) (hB : B ≤ n) :
    (xorPad b (k ++ List.replicate (n - k.length) 0)).take B =
      xorPad b (k ++ List.replicate (B - k.length) 0) := by
  have hmin : min (B - k.length) (n - k.length) = B - k.length := by omega
  rw [xorPad, ← List.map_take, List.take_append, List.take_of_length_le hk, List.take_replicate,
    hmin]
  rfl

theorem init_spec (hF : Digests F ok bits B L H) {hctx : Ctx γ} (hok : ok hctx.ctx) (key : Chunk)
    (ipad : Nat) :
    ∃ ctx, ok ctx ∧ (init F bits key ipad hctx).ctx =
        F.update (F.init bits ctx) ipad (xorPad 0x36 (blockKey B H key.bytes)) ∧
      (init F bits key ipad hctx).kOpad.take B = xorPad 0x5c (blockKey B H key.bytes) := by
  unfold init
  dsimp only
  rw [hF.blockSize]
  by_cases hlong : B < key.bytes.length
  · have hdigest := hF.stream hctx.ctx hok [key]
    have hsize := hF.hashSize hctx.ctx hok [key]
    rw [message, List.flatMap_singleton] at hdigest
    rw [List.foldl_cons, List.foldl_nil] at hdigest hsize
    have hk : (H key.bytes).length ≤ B := by
      rw [hF.length]
      exact hF.sizes.1
    rw [if_pos hlong]
    dsimp only
    rw [hF.blockSize, hdigest, hsize, ← hF.length key.bytes, take_xorPad _ hk hF.sizes.2.1,
      take_xorPad _ hk hF.sizes.2.1, blockKey, if_pos hlong]
    exact ⟨_, hF.cleared hctx.ctx hok [key], rfl, rfl⟩
  · have hk := Nat.le_of_not_lt hlong
    rw [if_neg hlong]
    dsimp only
    rw [hF.blockSize, take_xorPad _ hk hF.sizes.2.1, take_xorPad _ hk hF.sizes.2.1, blockKey,
      if_neg hlong]
    exact ⟨_, hok, rfl, rfl⟩

theorem foldl_update (chunks : List Chunk) (hctx : Ctx γ) : chunks.foldl (update F) hctx =
    { hctx with ctx := chunks.foldl (fun ctx c => F.update ctx c.addr c.bytes) hctx.ctx } := by
  induction chunks generalizing hctx with
  | nil => rfl
  | cons c chunks ih => rw [List.foldl_cons, List.foldl_cons, ih]; rfl

/-- A key and a message in chunks lead to the code of the message, and to its size; nothing else is
written.  The hash is selected by the size of its digest for the outer pass. -/
theorem final_spec (hF : Digests F ok bits B L H) (hL : Digests F ok L B L H) {hctx : Ctx γ}
    (hok : ok hctx.ctx) (key : Chunk) (chunks : List Chunk) (ipad opad digest : Nat) (m : Memory)
    {r : Nat × Memory}
    (hfinal : r = final F (chunks.foldl (update F) (init F bits key ipad hctx)) opad digest m) :
    r.1 = L ∧ Leaves m digest L (hmac B H key.bytes (message chunks)) r.2 := by
  obtain ⟨ctx, hctx', hinit, hopad⟩ := init_spec hF hok key ipad
  have hkey : (blockKey B H key.bytes).length = B :=
    length_blockKey (fun msg => hF.length msg ▸ hF.sizes.1) _
  have hpad : ∀ b, (xorPad b (blockKey B H key.bytes)).length < 2 ^ 64 := by
    intro b
    rw [length_xorPad, hkey]
    exact Nat.lt_of_le_of_lt hF.sizes.2.1 hF.sizes.2.2
  -- The inner pass, over the pad and the message.
  let inner : List Chunk := { addr := ipad, bytes := _, fits := hpad 0x36 } :: chunks
  have hinner := hF.stream ctx hctx' inner
  have hsize := hF.hashSize ctx hctx' inner
  have hcleared := hF.cleared ctx hctx' inner
  rw [foldl_update, hinit] at hfinal
  rw [List.foldl_cons] at hinner hsize hcleared
  generalize List.foldl _ _ chunks = ctx₁ at hfinal hinner hsize hcleared
  have hmessage : message inner = xorPad 0x36 (blockKey B H key.bytes) ++ message chunks := by
    rw [message, List.flatMap_cons]
    rfl
  rw [hmessage] at hinner
  -- The outer one, over the other pad and the digest of the inner one.
  have hread : read (write m digest (F.final ctx₁)) digest L = F.final ctx₁ := by
    have hself := @read_write_self m digest (F.final ctx₁)
    rwa [hinner, hF.length, ← hinner] at hself
  have hfits : (F.final ctx₁).length < 2 ^ 64 := by
    rw [hinner, hF.length]
    exact Nat.lt_of_le_of_lt (Nat.le_trans hF.sizes.1 hF.sizes.2.1) hF.sizes.2.2
  let pad : Chunk := { addr := opad, bytes := _, fits := hpad 0x5c }
  let inside : Chunk := { addr := digest, bytes := _, fits := hfits }
  have houter := hL.stream _ hcleared [pad, inside]
  have houterSize := hL.hashSize _ hcleared [pad, inside]
  have hopadSize := hL.hashSize _ hcleared [pad]
  simp only [List.foldl_cons, List.foldl_nil] at houter houterSize hopadSize
  unfold final at hfinal
  dsimp only at hfinal
  rw [hsize, hL.blockSize, hopad, hopadSize, hread, houterSize, houter] at hfinal
  have hcode : H (message [pad, inside]) = hmac B H key.bytes (message chunks) := by
    rw [message, List.flatMap_cons, List.flatMap_singleton]
    show H (xorPad 0x5c (blockKey B H key.bytes) ++ F.final ctx₁) = _
    rw [hinner]
    rfl
  rw [hcode] at hfinal
  have hcodeLen : (hmac B H key.bytes (message chunks)).length = L := hF.length _
  have hdigestLen : (F.final ctx₁).length = L := by rw [hinner, hF.length]
  subst hfinal
  refine ⟨rfl, ?_, ?_⟩
  · have hself := @read_write_self (write m digest (F.final ctx₁)) digest
      (hmac B H key.bytes (message chunks))
    rwa [hcodeLen] at hself
  · intro p n hp
    rw [read_write_of_disjoint (by rwa [hcodeLen]), read_write_of_disjoint (by rwa [hdigestLen])]

end Correct

end Hmac

/-!
# The four HMAC families

`hmac_md5_*`, `hmac_sha1_*`, `hmac_sha2_*` and `hmac_gost3411_2012_*`: the hashes they call, and
that what the final function leaves is the code of the whole message.
-/

open ByteMem BlockHash Hmac

theorem Hmac.length_words {α : Type} {f : α → List Byte} {k : Nat} (hf : ∀ a, (f a).length = k)
    (l : List α) : (l.flatMap f).length = k * l.length := by
  induction l with
  | nil => rfl
  | cons a l ih =>
    rw [List.flatMap_cons, List.length_append, hf, ih, List.length_cons, Nat.mul_succ,
      Nat.add_comm]

/-! ## MD5 -/

namespace Md5

/-- What `md5_final` leaves of a context. -/
def md5Cleared : Md5Ctx where
  hash := #v[0, 0, 0, 0]
  count := 0
  buffer := List.replicate msgBlkSize 0

def md5Fns : Fns Md5Ctx where
  init _ := md5Init
  update := md5Update
  final := md5Final
  cleared _ := md5Cleared
  blockSize _ := msgBlkSize
  hashSize _ := 16
  padSize := msgBlkSize

def hmacMd5Init : Chunk → Nat → Ctx Md5Ctx → Ctx Md5Ctx := Hmac.init md5Fns 0

def hmacMd5Update : Ctx Md5Ctx → Chunk → Ctx Md5Ctx := Hmac.update md5Fns

def hmacMd5Final (hctx : Ctx Md5Ctx) (opad digest : Nat) (m : Memory) : Memory :=
  (Hmac.final md5Fns hctx opad digest m).2

theorem length_md5 (msg : List Byte) : (md5 msg).length = 16 := by
  rw [md5, length_words (fun _ => length_bytes), Vector.length_toList]

theorem md5Fns_digests (bits : Nat) :
    Digests md5Fns (fun ctx => ctx.buffer.length = msgBlkSize) bits msgBlkSize 16 md5 where
  stream := md5_stream
  blockSize _ := rfl
  hashSize _ _ _ := rfl
  cleared _ _ _ := List.length_replicate
  length := length_md5
  sizes := by decide

end Md5

/-! ## SHA-1 -/

namespace Sha1

/-- What `sha1_final` leaves of a context. -/
def sha1Cleared : Sha1Ctx where
  count := 0
  hash := #v[0, 0, 0, 0, 0]
  buffer := List.replicate msgBlkSize 0

def sha1Fns : Fns Sha1Ctx where
  init _ := sha1Init
  update := sha1Update
  final := sha1Final
  cleared _ := sha1Cleared
  blockSize _ := msgBlkSize
  hashSize _ := 20
  padSize := msgBlkSize

def hmacSha1Init : Chunk → Nat → Ctx Sha1Ctx → Ctx Sha1Ctx := Hmac.init sha1Fns 0

def hmacSha1Update : Ctx Sha1Ctx → Chunk → Ctx Sha1Ctx := Hmac.update sha1Fns

def hmacSha1Final (hctx : Ctx Sha1Ctx) (opad digest : Nat) (m : Memory) : Memory :=
  (Hmac.final sha1Fns hctx opad digest m).2

theorem length_sha1 (msg : List Byte) : (sha1 msg).length = 20 := by
  rw [sha1, length_words (fun _ => List.length_reverse.trans length_bytes), Vector.length_toList]

theorem sha1Fns_digests (bits : Nat) :
    Digests sha1Fns (fun ctx => ctx.buffer.length = msgBlkSize) bits msgBlkSize 20 sha1 where
  stream := sha1_stream
  blockSize _ := rfl
  hashSize _ _ _ := rfl
  cleared _ _ _ := List.length_replicate
  length := length_sha1
  sizes := by decide

end Sha1

/-! ## SHA-2 -/

namespace Sha2

/-- The cases of the `switch` in `sha2_init`. -/
def Bits.ofNat : Nat → Option Bits
  | 224 | 28 => some sha224
  | 256 | 32 => some sha256
  | 384 | 48 => some sha384
  | 512 | 64 => some sha512
  | _ => none

/-- A context with its `block_size`. -/
abbrev AnyCtx := (b : BlockSize) × Sha2Ctx b

/-- `sha2_init`, which sets the block size. -/
def sha2InitBits (bits : Nat) (ctx : AnyCtx) : AnyCtx :=
  match Bits.ofNat bits with
  | some bits =>
    let ⟨_, { hash := _, buffer, count, countHi, hashSize }⟩ := ctx
    ⟨bits.block, sha2Init bits { hash := bits.H0, buffer, count, countHi, hashSize }⟩
  | none => ⟨ctx.1, { ctx.2 with count := 0, countHi := 0 }⟩

/-- What `sha2_final` leaves of a context; the block size is set again by `sha2_init`. -/
def sha2Cleared (ctx : AnyCtx) : AnyCtx :=
  ⟨ctx.1, {
    hash := Vector.replicate 8 0
    buffer := List.replicate 128 0
    count := 0
    countHi := 0
    hashSize := 0 }⟩

def sha2Fns : Fns AnyCtx where
  init := sha2InitBits
  update ctx addr data := ⟨ctx.1, sha2Update ctx.2 addr data⟩
  final ctx := sha2Final ctx.2
  cleared := sha2Cleared
  blockSize ctx := ctx.1.size
  hashSize ctx := ctx.2.hashSize
  padSize := 128

def hmacSha2Init : Nat → Chunk → Nat → Ctx AnyCtx → Ctx AnyCtx := Hmac.init sha2Fns

def hmacSha2Update : Ctx AnyCtx → Chunk → Ctx AnyCtx := Hmac.update sha2Fns

def hmacSha2Final : Ctx AnyCtx → Nat → Nat → Memory → Nat × Memory := Hmac.final sha2Fns

theorem length_sha2 (bits : Bits) (msg : List Byte) : (sha2 bits msg).length = bits.hashSize := by
  rw [sha2, List.length_take, length_words (fun _ => List.length_reverse.trans length_bytes),
    Vector.length_toList]
  cases bits <;> rfl

theorem foldl_sha2Update (chunks : List Chunk) {b : BlockSize} (ctx : Sha2Ctx b) :
    chunks.foldl (fun ctx c => sha2Fns.update ctx c.addr c.bytes) ⟨b, ctx⟩ =
      ⟨b, chunks.foldl (fun ctx c => sha2Update ctx c.addr c.bytes) ctx⟩ := by
  induction chunks generalizing ctx with
  | nil => rfl
  | cons c chunks ih => rw [List.foldl_cons, List.foldl_cons, ← ih]; rfl

theorem sha2Fns_digests {n : Nat} {bits : Bits} (hn : Bits.ofNat n = some bits) :
    Digests sha2Fns (fun ctx => ctx.2.buffer.length = 128) n bits.block.size bits.hashSize
      (sha2 bits) := by
  have hinit : ∀ ctx : AnyCtx, ctx.2.buffer.length = 128 → ∃ ctx' : Sha2Ctx bits.block,
      ctx'.buffer.length = 128 ∧ sha2Fns.init n ctx = ⟨bits.block, sha2Init bits ctx'⟩ := by
    rintro ⟨b, ctx⟩ hsize
    refine ⟨{ ctx with hash := bits.H0 }, hsize, ?_⟩
    show sha2InitBits n ⟨b, ctx⟩ = _
    rw [sha2InitBits, hn]
  apply Digests.mk
  case stream =>
    intro ctx hok chunks
    obtain ⟨ctx', hsize, heq⟩ := hinit ctx hok
    rw [heq, foldl_sha2Update]
    exact sha2_stream hsize chunks
  case blockSize =>
    intro ctx
    show (sha2InitBits n ctx).1.size = _
    rw [sha2InitBits, hn]
  case hashSize =>
    intro ctx hok chunks
    obtain ⟨ctx', hsize, heq⟩ := hinit ctx hok
    rw [heq, foldl_sha2Update]
    have htaken := @foldl_message _ (Taken bits) (fun ctx c => sha2Update ctx c.addr c.bytes)
      (fun _ _ h c => h.update c) _ (Taken.init hsize) chunks
    exact htaken.hashSize
  case cleared => exact fun _ _ _ => List.length_replicate
  case length => exact length_sha2 bits
  case sizes => cases bits <;> decide

end Sha2

/-! ## GOST R 34.11-2012 -/

namespace Gost3411

/-- The cases of the `switch` in `gost3411_2012_init`. -/
def Bits.ofNat : Nat → Bits
  | 256 | 32 => gost256
  | _ => gost512

/-- What `gost3411_2012_final` leaves of a context. -/
def gostCleared : Ctx where
  hashSize := 0
  bufferUsage := 0
  state := {
    hash := List.replicate 8 0
    counter := List.replicate 8 0
    sigma := List.replicate 8 0 }
  buffer := List.replicate msgBlkSize 0

def gostFns (ax : Ax) : Fns Ctx where
  init bits _ := gostInit (Bits.ofNat bits)
  update := gostUpdate ax
  final := gostFinal ax
  cleared _ := gostCleared
  blockSize _ := msgBlkSize
  hashSize ctx := ctx.hashSize
  padSize := msgBlkSize

def hmacGostInit (ax : Ax) : Nat → Chunk → Nat → Hmac.Ctx Ctx → Hmac.Ctx Ctx :=
  Hmac.init (gostFns ax)

def hmacGostUpdate (ax : Ax) : Hmac.Ctx Ctx → Chunk → Hmac.Ctx Ctx := Hmac.update (gostFns ax)

def hmacGostFinal (ax : Ax) : Hmac.Ctx Ctx → Nat → Nat → Memory → Nat × Memory :=
  Hmac.final (gostFns ax)

section Length

variable {ax : Ax}

theorem length_xor512 {a b : Words} (ha : a.length = 8) (hb : b.length = 8) :
    (xor512 a b).length = 8 := by
  rw [xor512, List.length_zipWith, ha, hb, Nat.min_self]

theorem length_xslp (a b : Words) : (xslp ax a b).length = 8 := by
  rw [xslp, slp, List.length_map, List.length_range]

theorem length_encrypt (kbuf : Words) {block hash : Words} (hblock : block.length = 8)
    (hhash : hash.length = 8) : (encrypt ax kbuf block hash).length = 8 := by
  have hfold : ∀ (l : List Nat) (s : Words × Words), s.1.length = 8 ∧ s.2.length = 8 →
      (l.foldl (fun s i => (xslp ax s.1 s.2, xslp ax s.2 (C[i]?.getD []))) s).1.length = 8 ∧
        (l.foldl (fun s i => (xslp ax s.1 s.2, xslp ax s.2 (C[i]?.getD []))) s).2.length = 8 := by
    intro l
    induction l with
    | nil => exact fun _ h => h
    | cons i l ih => exact fun _ _ => ih _ ⟨length_xslp _ _, length_xslp _ _⟩
  obtain ⟨htbuf, hkbuf⟩ := hfold (List.range' 1 (roundsCount - 1))
    (xslp ax kbuf block, xslp ax kbuf (C[0]?.getD [])) ⟨length_xslp _ _, length_xslp _ _⟩
  exact length_xor512 hhash (length_xor512 (length_xor512 hblock htbuf) hkbuf)

theorem length_compress (n : Nat) {h m : Words} (hh : h.length = 8) (hm : m.length = 8) :
    (compress ax n h m).length = 8 := length_encrypt _ hm hh

theorem length_afterBlocks {k : Nat} {s : Chain} {l : List Byte} (hs : s.h.length = 8) :
    (BlockStream.afterBlocks (fun s block => chainStep ax msgBlkBits s (blockWords block))
      msgBlkSize k s l).h.length = 8 := by
  induction k generalizing s l with
  | zero => exact hs
  | succ k ih =>
    rw [BlockStream.afterBlocks]
    exact ih (length_compress _ hs (length_blockWords _))

theorem length_finish (s : Chain) (hs : s.h.length = 8) :
    (compress ax 0 (compress ax 0 s.h (words s.n)) (words s.sigma)).length = 8 :=
  length_compress _ (length_compress _ hs (Limbs.length_limbs 8 _)) (Limbs.length_limbs 8 _)

theorem length_gost3411 (bits : Bits) (msg : List Byte) :
    (gost3411 ax bits msg).length = bits.hashSize := by
  have hwhole := @length_afterBlocks ax (msg.length / msgBlkSize)
    { h := bits.iv, n := 0, sigma := 0 } msg (length_iv bits)
  unfold gost3411
  dsimp only
  rw [List.length_drop, length_flatMap_bytes,
    length_finish _ (length_compress _ hwhole (length_blockWords _))]
  cases bits <;> rfl

end Length

theorem gostFns_digests (ax : Ax) {n : Nat} {bits : Bits} (hn : Bits.ofNat n = bits) :
    Digests (gostFns ax) (fun _ => True) n msgBlkSize bits.hashSize (gost3411 ax bits) := by
  subst hn
  apply Digests.mk
  case stream => exact fun _ _ chunks => gost3411_stream ax _ chunks
  case blockSize => exact fun _ => rfl
  case hashSize =>
    intro ctx hok chunks
    have htaken := @foldl_message _ (Taken ax (Bits.ofNat n))
      (fun ctx c => gostUpdate ax ctx c.addr c.bytes) (fun _ _ h c => h.update c) _
      (Taken.init ax (Bits.ofNat n)) chunks
    exact htaken.hashSize
  case cleared => exact fun _ _ _ => trivial
  case length => exact length_gost3411 _
  case sizes =>
    generalize Bits.ofNat n = bits
    show bits.hashSize ≤ msgBlkSize ∧ msgBlkSize ≤ msgBlkSize ∧ msgBlkSize < 2 ^ 64
    cases bits <;> decide

end Gost3411

/-! ## The codes -/

namespace Hmac

/-- Every family leaves the code of the message that came in chunks, for a key of any size.  The
hash of the last two is selected by a number, and again by the size of its digest. -/
theorem hmac_of_chunks (key : Chunk) (chunks : List Chunk) (ipad opad digest : Nat) (m : Memory) :
    (∀ hctx : Ctx Md5.Md5Ctx, hctx.ctx.buffer.length = 64 →
      Leaves m digest 16 (hmac 64 Md5.md5 key.bytes (message chunks)) (Md5.hmacMd5Final
        (chunks.foldl Md5.hmacMd5Update (Md5.hmacMd5Init key ipad hctx)) opad digest m)) ∧
    (∀ hctx : Ctx Sha1.Sha1Ctx, hctx.ctx.buffer.length = 64 →
      Leaves m digest 20 (hmac 64 Sha1.sha1 key.bytes (message chunks)) (Sha1.hmacSha1Final
        (chunks.foldl Sha1.hmacSha1Update (Sha1.hmacSha1Init key ipad hctx)) opad digest m)) ∧
    (∀ (n : Nat) (bits : Sha2.Bits), Sha2.Bits.ofNat n = some bits →
      ∀ hctx : Ctx Sha2.AnyCtx, hctx.ctx.2.buffer.length = 128 →
        (Sha2.hmacSha2Final (chunks.foldl Sha2.hmacSha2Update (Sha2.hmacSha2Init n key ipad hctx))
          opad digest m).1 = bits.hashSize ∧
        Leaves m digest bits.hashSize
          (hmac bits.block.size (Sha2.sha2 bits) key.bytes (message chunks))
          (Sha2.hmacSha2Final (chunks.foldl Sha2.hmacSha2Update (Sha2.hmacSha2Init n key ipad hctx))
            opad digest m).2) ∧
    ∀ (ax : Gost3411.Ax) (n : Nat) (hctx : Ctx Gost3411.Ctx),
      (Gost3411.hmacGostFinal ax (chunks.foldl (Gost3411.hmacGostUpdate ax)
        (Gost3411.hmacGostInit ax n key ipad hctx)) opad digest m).1 =
          (Gost3411.Bits.ofNat n).hashSize ∧
      Leaves m digest (Gost3411.Bits.ofNat n).hashSize
        (hmac 64 (Gost3411.gost3411 ax (Gost3411.Bits.ofNat n)) key.bytes (message chunks))
        (Gost3411.hmacGostFinal ax (chunks.foldl (Gost3411.hmacGostUpdate ax)
          (Gost3411.hmacGostInit ax n key ipad hctx)) opad digest m).2 := by
  refine ⟨?_, ?_, ?_, ?_⟩
  · intro hctx hok
    exact (final_spec (Md5.md5Fns_digests 0) (Md5.md5Fns_digests 16) hok key chunks ipad opad
      digest m rfl).2
  · intro hctx hok
    exact (final_spec (Sha1.sha1Fns_digests 0) (Sha1.sha1Fns_digests 20) hok key chunks ipad opad
      digest m rfl).2
  · intro n bits hn hctx hok
    have hagain : Sha2.Bits.ofNat bits.hashSize = some bits := by cases bits <;> rfl
    exact final_spec (Sha2.sha2Fns_digests hn) (Sha2.sha2Fns_digests hagain) hok key chunks ipad
      opad digest m rfl
  · intro ax n hctx
    have hagain : Gost3411.Bits.ofNat (Gost3411.Bits.ofNat n).hashSize = Gost3411.Bits.ofNat n := by
      cases Gost3411.Bits.ofNat n <;> rfl
    exact final_spec (Gost3411.gostFns_digests ax rfl) (Gost3411.gostFns_digests ax hagain) trivial
      key chunks ipad opad digest m rfl

/-- A key of two bytes and the message "abc" in two chunks, with SHA-384 selected by its bits. -/
theorem hmac_of_chunks_abc :
    Leaves (fun _ => 0) 5 48 (hmac 128 (Sha2.sha2 .sha384) [7, 9] [97, 98, 99])
      (Sha2.hmacSha2Final (abcChunks.foldl Sha2.hmacSha2Update
        (Sha2.hmacSha2Init 384 { addr := 3, bytes := [7, 9], fits := by decide } 0
          { ctx := Sha2.sha2Cleared ⟨.b64, Sha2.sha2Init .sha224 {
              hash := Sha2.Bits.H0 .sha224, buffer := [], count := 0, countHi := 0, hashSize := 0 }⟩
            kOpad := [] })) 0 5 (fun _ => 0)).2 :=
  ((hmac_of_chunks { addr := 3, bytes := [7, 9], fits := by decide } abcChunks 0 0 5
    (fun _ => 0)).2.2.1 384 .sha384 rfl _ rfl).2

end Hmac
