import Liblcb.Crypto.BlockHash
import Liblcb.Crypto.Words
import Liblcb.Lib.Limbs

/-!
# GOST R 34.11-2012

`crypto/hash/gost3411-2012.h`: the context, the generic transforms, `gost3411_2012_update` and
`gost3411_2012_final`.  The table `gost3411_2012_Ax`, of 8 times 256 words, is a parameter.
-/

namespace Gost3411

open ByteMem BlockHash BlockStream

abbrev Word := BitVec 64

/-- 512 bits, the lowest word first. -/
abbrev Words := List Word

/-- `gost3411_2012_Ax` -/
abbrev Ax := Fin 8 → Byte → Word

def msgBlkSize : Nat := 64

def msgBlkBits : Nat := 512

def roundsCount : Nat := 12

/-- `gost3411_2012_C` -/
def C : List Words := [
  [0xdd806559f2a64507, 0x05767436cc744d23, 0xa2422a08a460d315, 0x4b7ce09192676901,
    0x714eb88d7585c4fc, 0x2f6a76432e45d016, 0xebcb2f81c0657c1f, 0xb1085bda1ecadae9],
  [0xe679047021b19bb7, 0x55dda21bd7cbcd56, 0x5cb561c2db0aa7ca, 0x9ab5176b12d69958,
    0x61d55e0f16b50131, 0xf3feea720a232b98, 0x4fe39d460f70b5d7, 0x6fa3b58aa99d2f1a],
  [0x991e96f50aba0ab2, 0xc2b6f443867adb31, 0xc1c93a376062db09, 0xd3e20fe490359eb1,
    0xf2ea7514b1297b7b, 0x06f15e5f529c1f8b, 0x0a39fc286a3d8435, 0xf574dcac2bce2fc7],
  [0x220cbebc84e3d12e, 0x3453eaa193e837f1, 0xd8b71333935203be, 0xa9d72c82ed03d675,
    0x9d721cad685e353f, 0x488e857e335c3c7d, 0xf948e1a05d71e4dd, 0xef1fdfb3e81566d2],
  [0x601758fd7c6cfe57, 0x7a56a27ea9ea63f5, 0xdfff00b723271a16, 0xbfcd1747253af5a3,
    0x359e35d7800fffbd, 0x7f151c1f1686104a, 0x9a3f410c6ca92363, 0x4bea6bacad474799],
  [0xfa68407a46647d6e, 0xbf71c57236904f35, 0x0af21f66c2bec6b6, 0xcffaa6b71c9ab7b4,
    0x187f9ab49af08ec6, 0x2d66c4f95142a46c, 0x6fa4c33b7a3039c0, 0xae4faeae1d3ad3d9],
  [0x8886564d3a14d493, 0x3517454ca23c4af3, 0x06476983284a0504, 0x0992abc52d822c37,
    0xd3473e33197a93c9, 0x399ec6c7e6bf87c9, 0x51ac86febf240954, 0xf4c70e16eeaac5ec],
  [0xa47f0dd4bf02e71e, 0x36acc2355951a8d9, 0x69d18d2bd1a5c42f, 0xf4892bcb929b0690,
    0x89b4443b4ddbc49a, 0x4eb7f8719c36de1e, 0x03e7aa020c6e4141, 0x9b1f5b424d93c9a7],
  [0x7261445183235adb, 0x0e38dc92cb1f2a60, 0x7b2b8a9aa6079c54, 0x800a440bdbb2ceb1,
    0x3cd955b7e00d0984, 0x3a7d3a1b25894224, 0x944c9ad8ec165fde, 0x378f5a541631229b],
  [0x74b4c7fb98459ced, 0x3698fad1153bb6c3, 0x7a1e6c303b7652f4, 0x9fe76702af69334b,
    0x1fffe18a1b336103, 0x8941e71cff8a78db, 0x382ae548b2e4f3f3, 0xabbedea680056f52],
  [0x6bcaa4cd81f32d1b, 0xdea2594ac06fd85d, 0xefbacd1d7d476e98, 0x8a1d71efea48b9ca,
    0x2001802114846679, 0xd8fa6bbbebab0761, 0x3002c6cd635afe94, 0x7bcd9ed0efc889fb],
  [0x48bc924af11bd720, 0xfaf417d5d9b21b99, 0xe71da4aa88e12852, 0x5d80ef9d1891cc86,
    0xf82012d430219f9b, 0xcda43c32bcdf1d77, 0xd21380b00449b17a, 0x378ee767f11631ba]]

/-! ## Numbers of 512 bits -/

/-- The body of the loop of `gost3411_2012_addmod512`. -/
def addmod512Step (a tm crr : Word) : Word × Word :=
  let ai := a + crr
  let crr := if ai < crr then 1 else 0
  if tm ≠ 0 then
    let ai := ai + tm
    (ai, if ai < tm then 1 else crr)
  else (ai, crr)

def addmod512 (a b : Words) : Words := (Limbs.carryLoop addmod512Step a b 0).1

/-- The loop of `gost3411_2012_addmod512_digit`. -/
def addmod512DigitLoop : Words → Words
  | [] => []
  | a :: as => if a + 1 ≠ 0 then (a + 1) :: as else 0 :: addmod512DigitLoop as

def addmod512Digit : Words → Word → Words
  | [], _ => []
  | a :: as, b => if a + b ≥ b then (a + b) :: as else (a + b) :: addmod512DigitLoop as

/-! ## The block -/

section Transform

variable (ax : Ax)

/-- `gost3411_2012_SLP` -/
def slp (src : Words) : Words :=
  (List.range 8).map fun i =>
    (List.finRange 8).foldl (fun tmp j =>
      tmp ^^^ ax j (((src[j.val]?.getD 0) >>> (8 * i)).setWidth 8)) 0

/-- `GOST3411_2012_XOR2_512` -/
def xor512 (a b : Words) : Words := List.zipWith (· ^^^ ·) a b

/-- `gost3411_2012_XSLP` -/
def xslp (a b : Words) : Words := slp ax (xor512 a b)

/-- What both transforms do from the first round key on: `E()` and the final XOR. -/
def encrypt (kbuf block hash : Words) : Words :=
  let tbuf := xslp ax kbuf block
  let kbuf := xslp ax kbuf (C[0]?.getD [])
  let (tbuf, kbuf) := (List.range' 1 (roundsCount - 1)).foldl (fun (tbuf, kbuf) i =>
    (xslp ax tbuf kbuf, xslp ax kbuf (C[i]?.getD []))) (tbuf, kbuf)
  xor512 hash (xor512 (xor512 block tbuf) kbuf)

/-- The state of a context. -/
structure State where
  hash : Words
  counter : Words
  sigma : Words

/-- A block through a `const uint64_t *`. -/
def blockWords (block : List Byte) : Words :=
  (List.range 8).map fun i => word 64 ((block.drop (8 * i)).take 8)

/-- `gost3411_2012_transform_n_generic` for one block. -/
def gostBlock (blockSizeBits : Nat) (s : State) (block : Words) : State where
  hash := encrypt ax (xslp ax s.hash s.counter) block s.hash
  counter := addmod512Digit s.counter (BitVec.ofNat 64 blockSizeBits)
  sigma := addmod512 s.sigma block

/-- `gost3411_2012_transform_n_generic` for `n` blocks: blocks that are not 8 byte aligned are copied
into the input buffer. -/
def transformLoop (blockSizeBits : Nat) : Nat → State × List Byte → Nat → List Byte → State × List Byte
  | 0, s, _, _ => s
  | n + 1, s, addr, blocks =>
    let block := blocks.take msgBlkSize
    let s :=
      if addr % 8 = 0 then (gostBlock ax blockSizeBits s.1 (blockWords block), s.2)
      else
        let buffer := Buffer.splice s.2 0 block
        (gostBlock ax blockSizeBits s.1 (blockWords buffer), buffer)
    transformLoop blockSizeBits n s (addr + msgBlkSize) (blocks.drop msgBlkSize)

/-- `gost3411_2012_transform_n_generic` -/
def transformN (blockSizeBits : Nat) : Transform State := fun s addr blocks =>
  transformLoop ax blockSizeBits (blocks.length / msgBlkSize) s addr blocks

/-- `gost3411_2012_transform_1_generic` -/
def transform1 (s : State) (block : Words) : State :=
  { s with hash := encrypt ax (slp ax s.hash) block s.hash }

end Transform

/-! ## The context -/

/-- `gost3411_2012_ctx_t` -/
structure Ctx where
  hashSize : Nat
  bufferUsage : Nat
  state : State
  buffer : List Byte

/-- The two functions of the family. -/
inductive Bits
  | gost256
  | gost512

def Bits.hashSize : Bits → Nat
  | gost256 => 32
  | gost512 => 64

/-- The initial hash. -/
def Bits.iv : Bits → Words
  | gost256 => List.replicate 8 0x0101010101010101
  | gost512 => List.replicate 8 0

/-- `gost3411_2012_init`: the context is cleared first. -/
def gostInit (bits : Bits) : Ctx where
  hashSize := bits.hashSize
  bufferUsage := 0
  state := {
    hash := bits.iv
    counter := List.replicate 8 0
    sigma := List.replicate 8 0 }
  buffer := List.replicate msgBlkSize 0

def gostUpdate (ax : Ax) (ctx : Ctx) (addr : Nat) (data : List Byte) : Ctx :=
  if data.length = 0 then ctx
  else
    let (s, usage) := updateBuffer msgBlkSize (transformN ax msgBlkBits) (ctx.state, ctx.buffer)
      ctx.bufferUsage addr data
    { ctx with
      bufferUsage := usage
      state := s.1
      buffer := s.2 }

/-- `gost3411_2012_final`: the digest. -/
def gostFinal (ax : Ax) (ctx : Ctx) : List Byte :=
  let padding := msgBlkSize - ctx.bufferUsage
  let buffer :=
    if padding ≠ 0 then
      let buffer := Buffer.splice ctx.buffer ctx.bufferUsage (List.replicate padding 0)
      Buffer.splice buffer ctx.bufferUsage [0x01]
    else ctx.buffer
  let s := transformN ax (ctx.bufferUsage * 8) (ctx.state, buffer) 0 (buffer.take msgBlkSize)
  -- Finalize.
  let state := transform1 ax s.1 s.1.counter
  let state := transform1 ax state state.sigma
  ((state.hash.flatMap (bytes 8)).drop (64 - ctx.hashSize)).take ctx.hashSize

end Gost3411

/-!
# GOST R 34.11-2012 of a message in chunks

The standard has the counter and the sum of the blocks as numbers modulo `2^512`; a context has them as
eight words each.
-/

namespace Gost3411

open ByteMem BlockHash BlockStream Limbs

variable {ax : Ax}

/-! ## The standard -/

/-- The state of the standard: the hash, the number of bits and the sum of the blocks. -/
structure Chain where
  h : Words
  n : Nat
  sigma : Nat

/-- A number of 512 bits as words. -/
def words (v : Nat) : Words := limbs 64 8 v

/-- The compression `g_N(h, m)`. -/
def compress (ax : Ax) (n : Nat) (h m : Words) : Words := encrypt ax (xslp ax h (words n)) m h

/-- A block of `bits` bits. -/
def chainStep (ax : Ax) (bits : Nat) (s : Chain) (m : Words) : Chain where
  h := compress ax s.n s.h m
  n := (s.n + bits) % 2 ^ 512
  sigma := (s.sigma + val m) % 2 ^ 512

/-- The last bytes with the padding: 0x01 and zeros. -/
def padLast (last : List Byte) : List Byte :=
  last ++ 0x01 :: List.replicate (msgBlkSize - 1 - last.length) 0

/-- The digest of a message. -/
def gost3411 (ax : Ax) (bits : Bits) (msg : List Byte) : List Byte :=
  let s := whole (fun s block => chainStep ax msgBlkBits s (blockWords block)) msgBlkSize
    { h := bits.iv, n := 0, sigma := 0 } msg
  let last := rest msgBlkSize msg
  let s := chainStep ax (8 * last.length) s (blockWords (padLast last))
  let h := compress ax 0 s.h (words s.n)
  let h := compress ax 0 h (words s.sigma)
  (h.flatMap (bytes 8)).drop (64 - bits.hashSize)

/-! ## Numbers of 512 bits -/

theorem addmod512Step_spec (a tm crr : Word) (hcrr : crr.toNat ≤ 1) :
    (addmod512Step a tm crr).2.toNat ≤ 1 ∧
      (addmod512Step a tm crr).1.toNat + 2 ^ 64 * (addmod512Step a tm crr).2.toNat =
        a.toNat + 1 * tm.toNat + crr.toNat := by
  have ha := a.isLt
  have htm := tm.isLt
  have hone : (1 : Word).toNat = 1 := rfl
  have hzero : (0 : Word).toNat = 0 := rfl
  unfold addmod512Step
  dsimp only
  by_cases htm0 : tm = 0
  · rw [if_neg (not_not_intro htm0), htm0]
    split
    next hlt =>
      rw [BitVec.lt_def, BitVec.toNat_add] at hlt
      rw [BitVec.toNat_add, hone, hzero]
      omega
    next hlt =>
      rw [BitVec.lt_def, BitVec.toNat_add] at hlt
      rw [BitVec.toNat_add, hzero]
      omega
  · have hpos : tm.toNat ≠ 0 := fun h => htm0 (BitVec.eq_of_toNat_eq h)
    rw [if_pos htm0]
    dsimp only
    split
    next hlt =>
      rw [BitVec.lt_def, BitVec.toNat_add, BitVec.toNat_add] at hlt
      rw [BitVec.toNat_add, BitVec.toNat_add, hone]
      omega
    -- no carry from the sum of the words, and perhaps one from the carry that came in
    next hlt =>
      rw [BitVec.lt_def, BitVec.toNat_add, BitVec.toNat_add] at hlt
      rw [BitVec.toNat_add, BitVec.toNat_add]
      split
      next hcarry =>
        rw [BitVec.lt_def, BitVec.toNat_add] at hcarry
        rw [hone]
        omega
      next hcarry =>
        rw [BitVec.lt_def, BitVec.toNat_add] at hcarry
        rw [hzero]
        omega

theorem eq_words {ws : Words} {v : Nat} (hlen : ws.length = 8) (hval : val ws = v % 2 ^ 512) :
    ws = words v := by
  apply val_inj
  · rw [hlen, words, length_limbs]
  · rw [hval, words, val_limbs]

theorem sum_mod {v c n b P : Nat} (hv : v < P) (hsum : v + P * c = n % P + 1 * b + 0) :
    v = (n + b) % P % P := by
  have hcongr : (n + b) % P = (v + P * c) % P := by
    rw [hsum, Nat.one_mul, Nat.add_zero, Nat.mod_add_mod]
  rw [Nat.mod_mod, hcongr, Nat.add_mul_mod_self_left, Nat.mod_eq_of_lt hv]

theorem addmod512_words {n : Nat} {b : Words} (hb : b.length = 8) :
    addmod512 (words n) b = words ((n + val b) % 2 ^ 512) := by
  have hlen : b.length ≤ (words n).length := by rw [hb, words, length_limbs]
  have hsum := (carryLoop_add (fun c : Word => c.toNat ≤ 1)
    (fun a b c hc => addmod512Step_spec a b c hc) (words n) b 0 (by decide) hlen).2
  have hsize : (carryLoop addmod512Step (words n) b 0).1.length = 8 := by
    rw [length_carryLoop, words, length_limbs]
  have hlt := val_lt (carryLoop addmod512Step (words n) b 0).1
  rw [hsize] at hlt
  rw [hb, words, val_limbs] at hsum
  exact eq_words hsize (sum_mod hlt hsum)

theorem addmod512DigitLoop_spec (as : Words) :
    (addmod512DigitLoop as).length = as.length ∧
      val (addmod512DigitLoop as) = (val as + 1) % 2 ^ (64 * as.length) := by
  induction as with
  | nil => exact ⟨rfl, by simp [addmod512DigitLoop]⟩
  | cons a as ih =>
    have ha := a.isLt
    have hlt := val_lt as
    have hpow : 2 ^ (64 * (as.length + 1)) = 2 ^ 64 * 2 ^ (64 * as.length) := pow_succ_mul 64 _
    have hnat : (a + 1).toNat = (a.toNat + 1) % 2 ^ 64 := BitVec.toNat_add a 1
    unfold addmod512DigitLoop
    split
    next hne =>
      have hsmall : a.toNat + 1 < 2 ^ 64 := by
        by_contra hbig
        apply hne
        apply BitVec.eq_of_toNat_eq
        rw [hnat, show a.toNat + 1 = 2 ^ 64 by omega]
        rfl
      rw [Nat.mod_eq_of_lt hsmall] at hnat
      refine ⟨rfl, ?_⟩
      rw [val_cons, val_cons, hnat, List.length_cons, hpow, Nat.mod_eq_of_lt]
      · ring
      · -- The value does not reach the next power.
        have hmul : 2 ^ 64 * (val as + 1) ≤ 2 ^ 64 * 2 ^ (64 * as.length) :=
          Nat.mul_le_mul_left _ hlt
        rw [Nat.mul_succ] at hmul
        omega
    next heq =>
      have hzero : (a + 1).toNat = 0 := by
        rw [not_not.mp heq]
        rfl
      have hfull : a.toNat + 1 = 2 ^ 64 := by omega
      refine ⟨by rw [List.length_cons, List.length_cons, ih.1], ?_⟩
      have hsum : a.toNat + 2 ^ 64 * val as + 1 = 2 ^ 64 * (val as + 1) := by
        rw [Nat.mul_succ]
        omega
      rw [val_cons, val_cons, ih.2, List.length_cons, hpow, hsum, Nat.mul_mod_mul_left,
        show (0 : Word).toNat = 0 from rfl, Nat.zero_add]

theorem addmod512Digit_words (n bits : Nat) (hbits : bits < 2 ^ 64) :
    addmod512Digit (words n) (BitVec.ofNat 64 bits) = words ((n + bits) % 2 ^ 512) := by
  have hlen : (words n).length = 8 := length_limbs 8 n
  have hval : val (words n) = n % 2 ^ 512 := val_limbs 8 n
  cases hw : words n with
  | nil => rw [hw] at hlen; contradiction
  | cons a as =>
    rw [hw, List.length_cons] at hlen
    rw [hw, val_cons] at hval
    have hrest : as.length = 7 := by omega
    have ha := a.isLt
    have hlt := val_lt as
    have hb : (BitVec.ofNat 64 bits).toNat = bits := by
      rw [BitVec.toNat_ofNat, Nat.mod_eq_of_lt hbits]
    have hnat : (a + BitVec.ofNat 64 bits).toNat = (a.toNat + bits) % 2 ^ 64 := by
      rw [BitVec.toNat_add, hb]
    have hloop := addmod512DigitLoop_spec as
    rw [hrest] at hlt hloop
    have hpow : 2 ^ 512 = 2 ^ 64 * 2 ^ (64 * 7) := by rw [← Nat.pow_add]
    have hsum : (n + bits) % 2 ^ 512 % 2 ^ 512 = (a.toNat + 2 ^ 64 * val as + bits) % 2 ^ 512 := by
      rw [hval, Nat.mod_mod, Nat.mod_add_mod]
    rw [addmod512Digit]
    split
    next hge =>
      rw [ge_iff_le, BitVec.le_def, hnat, hb] at hge
      apply eq_words
      · rw [List.length_cons, hrest]
      · have hmul : 2 ^ 64 * (val as + 1) ≤ 2 ^ 512 := hpow ▸ Nat.mul_le_mul_left _ hlt
        rw [Nat.mul_succ] at hmul
        rw [hsum, val_cons, hnat, Nat.mod_eq_of_lt (by omega)]
        omega
    next hcarry =>
      rw [ge_iff_le, BitVec.le_def, hnat, hb] at hcarry
      apply eq_words
      · rw [List.length_cons, hloop.1]
      · have hover : a.toNat + 2 ^ 64 * val as + bits =
            (a.toNat + bits) % 2 ^ 64 + 2 ^ 64 * (val as + 1) := by
          rw [Nat.mul_succ]
          omega
        have hmod : (a.toNat + bits) % 2 ^ 64 % 2 ^ 64 = (a.toNat + bits) % 2 ^ 64 := Nat.mod_mod _ _
        have hdiv : (a.toNat + bits) % 2 ^ 64 / 2 ^ 64 = 0 :=
          Nat.div_eq_of_lt (Nat.mod_lt _ (Nat.two_pow_pos 64))
        rw [hsum, val_cons, hnat, hloop.2, hover, hpow, Nat.mod_mul, Nat.add_mul_mod_self_left, hmod,
          Nat.add_mul_div_left _ _ (Nat.two_pow_pos 64), hdiv, Nat.zero_add]

/-! ## The transforms -/

theorem length_blockWords (block : List Byte) : (blockWords block).length = 8 := by
  rw [blockWords, List.length_map, List.length_range]

theorem blockWords_splice {buffer block : List Byte} (hlen : block.length = msgBlkSize) :
    blockWords (Buffer.splice buffer 0 block) = blockWords block := by
  have hsize : block.length = 64 := hlen
  apply List.map_congr_left
  intro i hi
  have hi := List.mem_range.mp hi
  simp only [Buffer.splice, List.take_zero, List.nil_append]
  rw [List.drop_append_of_le_length (by omega), List.take_append_of_le_length (by
    rw [List.length_drop]
    omega)]

/-- The context has the state of the standard. -/
def stateOf (s : Chain) : State where
  hash := s.h
  counter := words s.n
  sigma := words s.sigma

theorem gostBlock_stateOf (s : Chain) {bits : Nat} (hbits : bits < 2 ^ 64) (block : List Byte) :
    gostBlock ax bits (stateOf s) (blockWords block) =
      stateOf (chainStep ax bits s (blockWords block)) := by
  simp only [gostBlock, stateOf, chainStep, compress]
  rw [addmod512_words (length_blockWords block), addmod512Digit_words _ _ hbits]

def byteBlock (ax : Ax) (bits : Nat) (s : State) (block : List Byte) : State :=
  gostBlock ax bits s (blockWords block)

theorem afterBlocks_stateOf {k : Nat} {s : Chain} {l : List Byte} :
    afterBlocks (byteBlock ax msgBlkBits) msgBlkSize k (stateOf s) l =
      stateOf (afterBlocks (fun s block => chainStep ax msgBlkBits s (blockWords block))
        msgBlkSize k s l) := by
  induction k generalizing s l with
  | zero => rfl
  | succ k ih =>
    rw [afterBlocks, afterBlocks, byteBlock, gostBlock_stateOf s (by decide), ih]

theorem transformLoop_spec {bits k : Nat} {s : State × List Byte} {addr : Nat} {blocks : List Byte}
    (hsize : msgBlkSize ≤ s.2.length) (hlen : k * msgBlkSize ≤ blocks.length) :
    (transformLoop ax bits k s addr blocks).1 =
      afterBlocks (byteBlock ax bits) msgBlkSize k s.1 blocks ∧
      (transformLoop ax bits k s addr blocks).2.length = s.2.length := by
  induction k generalizing s addr blocks with
  | zero => exact ⟨rfl, rfl⟩
  | succ k ih =>
    rw [Nat.succ_mul] at hlen
    have hblock : (blocks.take msgBlkSize).length = msgBlkSize := by
      rw [List.length_take]
      omega
    have hrest : k * msgBlkSize ≤ (blocks.drop msgBlkSize).length := by
      rw [List.length_drop]
      omega
    rw [transformLoop, afterBlocks]
    dsimp only
    by_cases haligned : addr % 8 = 0
    · rw [if_pos haligned]
      exact ih hsize hrest
    · have hbuffer : (Buffer.splice s.2 0 (blocks.take msgBlkSize)).length = s.2.length :=
        Buffer.length_splice (by omega)
      rw [if_neg haligned, blockWords_splice hblock]
      have hnext := @ih (byteBlock ax bits s.1 (blocks.take msgBlkSize),
        Buffer.splice s.2 0 (blocks.take msgBlkSize)) (addr + msgBlkSize)
          (blocks.drop msgBlkSize) (hbuffer ▸ hsize) hrest
      rw [hbuffer] at hnext
      exact hnext

theorem transformN_runs (bits : Nat) : Runs (byteBlock ax bits) msgBlkSize (transformN ax bits) where
  state _ _ _ hsize _ := (transformLoop_spec hsize (Nat.div_mul_le_self _ _)).1
  buffer _ _ _ hsize _ := (transformLoop_spec hsize (Nat.div_mul_le_self _ _)).2

/-! ## Contexts -/

/-- The context of a message so far. -/
structure Taken (ax : Ax) (bits : Bits) (msg : List Byte) (ctx : Ctx) : Prop where
  holds : Holds (byteBlock ax msgBlkBits) msgBlkSize (stateOf { h := bits.iv, n := 0, sigma := 0 }) msg
    (ctx.state, ctx.buffer)
  usage : ctx.bufferUsage = msg.length % msgBlkSize
  hashSize : ctx.hashSize = bits.hashSize

variable {bits : Bits} {msg : List Byte} {ctx : Ctx}

theorem words_zero : words 0 = List.replicate 8 0 := by decide

theorem Taken.init (ax : Ax) (bits : Bits) : Taken ax bits [] (gostInit bits) where
  holds := {
    state := by
      rw [whole_of_lt (l := []) (by decide), stateOf, words_zero]
      rfl
    buffer := rfl
    size := by rw [gostInit, List.length_replicate] }
  usage := rfl
  hashSize := rfl

theorem Taken.update (h : Taken ax bits msg ctx) (c : Chunk) :
    Taken ax bits (msg ++ c.bytes) (gostUpdate ax ctx c.addr c.bytes) := by
  unfold gostUpdate
  by_cases hempty : c.bytes.length = 0
  · rw [if_pos hempty, List.eq_nil_of_length_eq_zero hempty, List.append_nil]
    exact h
  · rw [if_neg hempty, h.usage]
    have hnext := h.holds.update (k := 6) (by decide) (transformN_runs msgBlkBits) c.addr c.fits
    exact ⟨hnext.1, hnext.2, h.hashSize⟩

theorem take_padded {buffer last : List Byte} {usage : Nat} (hlast : buffer.take usage = last)
    (husage : usage < msgBlkSize) (hsize : msgBlkSize ≤ buffer.length) :
    (Buffer.splice (Buffer.splice buffer usage (List.replicate (msgBlkSize - usage) 0)) usage
      [0x01]).take msgBlkSize = padLast last := by
  have hlen : last.length = usage := by
    rw [← hlast, List.length_take]
    omega
  have hzeros : (List.replicate (msgBlkSize - usage) (0 : Byte)).length = msgBlkSize - usage :=
    List.length_replicate
  have hone : ([0x01] : List Byte).length = 1 := rfl
  have hdrop : (List.replicate (msgBlkSize - usage) (0 : Byte)).drop 1 =
      List.replicate (msgBlkSize - 1 - usage) 0 := by
    rw [List.drop_replicate]
    congr 1
    omega
  have hfill : usage + ([0x01] ++ List.replicate (msgBlkSize - 1 - usage) (0 : Byte)).length =
      msgBlkSize := by
    rw [List.length_append, List.length_replicate, hone]
    omega
  rw [Buffer.splice_over (by omega) (by omega), hone, hdrop, take_filled hfill (by omega), hlast,
    padLast, hlen]
  rfl

theorem transform1_hash (s : State) (hlen : s.hash.length ≤ 8) (v : Nat) :
    (transform1 ax s (words v)).hash = compress ax 0 s.hash (words v) := by
  have hxor : xor512 s.hash (words 0) = s.hash := by
    rw [words_zero]
    apply List.ext_getElem
    · rw [xor512, List.length_zipWith, List.length_replicate]
      omega
    · intro i hi hi'
      simp only [xor512, List.getElem_zipWith, List.getElem_replicate]
      exact BitVec.xor_zero
  rw [compress, xslp, hxor]
  rfl

theorem length_encrypt_le (kbuf block hash : Words) : (encrypt ax kbuf block hash).length ≤ hash.length := by
  simp only [encrypt, xor512, List.length_zipWith]
  omega

theorem length_chain {k : Nat} {s : Chain} {l : List Byte} (h : s.h.length ≤ 8) :
    (afterBlocks (fun s block => chainStep ax msgBlkBits s (blockWords block))
      msgBlkSize k s l).h.length ≤ 8 := by
  induction k generalizing s l with
  | zero => exact h
  | succ k ih =>
    rw [afterBlocks]
    apply ih
    exact (length_encrypt_le _ _ _).trans h

theorem length_flatMap_bytes (ws : Words) : (ws.flatMap (bytes 8)).length = 8 * ws.length := by
  induction ws with
  | nil => rfl
  | cons w ws ih =>
    rw [List.flatMap_cons, List.length_append, length_bytes, ih, List.length_cons]
    omega

theorem length_iv (bits : Bits) : bits.iv.length = 8 := by
  cases bits with
  | gost256 => rfl
  | gost512 => rfl

theorem Taken.final (h : Taken ax bits msg ctx) : gostFinal ax ctx = gost3411 ax bits msg := by
  have hlt := Nat.mod_lt msg.length (by decide : 0 < msgBlkSize)
  have hsize : msgBlkSize ≤ ctx.buffer.length := h.holds.size
  have hpad : msgBlkSize - ctx.bufferUsage ≠ 0 := by
    rw [h.usage]
    omega
  have husage : ctx.bufferUsage < msgBlkSize := h.usage ▸ hlt
  have hlast : ctx.buffer.take ctx.bufferUsage = rest msgBlkSize msg := by
    rw [h.usage]
    exact h.holds.buffer
  have hblock := take_padded hlast husage hsize
  have hlen : (rest msgBlkSize msg).length = ctx.bufferUsage := by rw [length_rest, h.usage]
  unfold gostFinal gost3411
  dsimp only
  rw [if_pos hpad, hblock]
  have hpadlen : (padLast (rest msgBlkSize msg)).length = msgBlkSize := by
    rw [padLast, List.length_append, List.length_cons, List.length_replicate, hlen]
    omega
  have hzeros : (List.replicate (msgBlkSize - ctx.bufferUsage) (0 : Byte)).length =
      msgBlkSize - ctx.bufferUsage := List.length_replicate
  have hone : ([0x01] : List Byte).length = 1 := rfl
  have hbuffer : msgBlkSize ≤ (Buffer.splice (Buffer.splice ctx.buffer ctx.bufferUsage
      (List.replicate (msgBlkSize - ctx.bufferUsage) 0)) ctx.bufferUsage [0x01]).length := by
    rw [Buffer.length_splice (by rw [Buffer.length_splice (by omega)]; omega),
      Buffer.length_splice (by omega)]
    exact hsize
  -- The state after the last block is the one of the standard.
  have hstate : (transformN ax (ctx.bufferUsage * 8) (ctx.state, Buffer.splice (Buffer.splice ctx.buffer
      ctx.bufferUsage (List.replicate (msgBlkSize - ctx.bufferUsage) 0)) ctx.bufferUsage [0x01]) 0
        (padLast (rest msgBlkSize msg))).1 = stateOf (chainStep ax (8 * (rest msgBlkSize msg).length)
          (whole (fun s block => chainStep ax msgBlkBits s (blockWords block)) msgBlkSize
            { h := bits.iv, n := 0, sigma := 0 } msg) (blockWords (padLast (rest msgBlkSize msg)))) := by
    rw [(transformN_runs _).state _ _ _ hbuffer ⟨1, by rw [hpadlen, Nat.mul_one]⟩]
    have hone := @whole_block _ _ (byteBlock ax (ctx.bufferUsage * 8)) msgBlkSize ctx.state
      (padLast (rest msgBlkSize msg)) [] (by decide) hpadlen
    have hnil : ([] : List Byte).length < msgBlkSize := by decide
    rw [List.append_nil, whole_of_lt (l := []) hnil] at hone
    have htaken : ctx.state = stateOf (whole (fun s block =>
        chainStep ax msgBlkBits s (blockWords block)) msgBlkSize { h := bits.iv, n := 0, sigma := 0 }
          msg) := h.holds.state.trans afterBlocks_stateOf
    rw [hone, htaken, byteBlock, gostBlock_stateOf _ (by
      unfold msgBlkSize at husage
      omega), hlen, Nat.mul_comm]
  rw [hstate, h.hashSize]
  have hwhole := @length_chain ax (msg.length / msgBlkSize) { h := bits.iv, n := 0, sigma := 0 } msg
    (length_iv bits).le
  have hchain : (chainStep ax (8 * (rest msgBlkSize msg).length)
      (whole (fun s block => chainStep ax msgBlkBits s (blockWords block)) msgBlkSize
        { h := bits.iv, n := 0, sigma := 0 } msg) (blockWords (padLast (rest msgBlkSize msg)))).h.length
          ≤ 8 := (length_encrypt_le _ _ _).trans hwhole
  generalize chainStep ax (8 * (rest msgBlkSize msg).length) _ _ = s at hchain
  have hfirst := @transform1_hash ax (stateOf s) hchain s.n
  have hfirstlen : (transform1 ax (stateOf s) (words s.n)).hash.length ≤ 8 :=
    (length_encrypt_le _ _ _).trans hchain
  have hsecond := @transform1_hash ax (transform1 ax (stateOf s) (words s.n)) hfirstlen s.sigma
  rw [hfirst] at hsecond
  have hdigest : ((transform1 ax (transform1 ax (stateOf s) (stateOf s).counter)
      (transform1 ax (stateOf s) (stateOf s).counter).sigma).hash.flatMap (bytes 8)) =
        (compress ax 0 (compress ax 0 s.h (words s.n)) (words s.sigma)).flatMap (bytes 8) :=
    congrArg (List.flatMap (bytes 8)) hsecond
  rw [hdigest]
  apply List.take_of_length_le
  have hshort : (compress ax 0 (compress ax 0 s.h (words s.n)) (words s.sigma)).length ≤ 8 :=
    (length_encrypt_le _ _ _).trans ((length_encrypt_le _ _ _).trans hchain)
  have hbytes : ((compress ax 0 (compress ax 0 s.h (words s.n)) (words s.sigma)).flatMap
      (bytes 8)).length ≤ 64 := by
    rw [length_flatMap_bytes]
    omega
  rw [List.length_drop]
  cases bits with
  | gost256 => simp only [Bits.hashSize]; omega
  | gost512 => simp only [Bits.hashSize]; omega

theorem gost3411_stream (ax : Ax) (bits : Bits) (chunks : List Chunk) :
    gostFinal ax (chunks.foldl (fun ctx c => gostUpdate ax ctx c.addr c.bytes) (gostInit bits)) =
      gost3411 ax bits (message chunks) := by
  have htaken := @foldl_message _ (Taken ax bits) (fun ctx c => gostUpdate ax ctx c.addr c.bytes)
    (fun _ _ h c => h.update c) _ (Taken.init ax bits) chunks
  exact htaken.final

end Gost3411
