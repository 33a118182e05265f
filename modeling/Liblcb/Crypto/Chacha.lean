import Liblcb.Crypto.Words
import Mathlib.Data.Vector.Basic
import Mathlib.Tactic.IntervalCases

/-!
# ChaCha and XChaCha

The functions of `crypto/cipher/chacha.h` on a little-endian host, for a build with `CHACHA_X64` or
without.  A null pointer is `none`.  A key, a counter or an iv is only read: it is the memory from its
pointer on.  The buffer `ks` of a stream context is an object of its own, at address 0 of its own
memory; `ctx->x` is written before it is read and is local here.
-/

namespace Chacha

open ByteMem Words

abbrev State := Vector W 16

/-- `chacha_context_t` -/
structure Context where
  state : State
  rounds : Nat

/-- `chacha_context_str_t` -/
structure ContextStr where
  c : Context
  ksLen : Nat
  ks : Memory

/-! ## Rounds -/

/-- `CHACHA_QUARTERROUND` of the entries `i`, `j`, `k` and `l`, which are four different ones. -/
def quarterRound (i j k l : Fin 16) (n : State) : State :=
  let a := n[i]; let b := n[j]; let c := n[k]; let d := n[l]
  let a := a + b; let d := rotl32 (d ^^^ a) 16
  let c := c + d; let b := rotl32 (b ^^^ c) 12
  let a := a + b; let d := rotl32 (d ^^^ a) 8
  let c := c + d; let b := rotl32 (b ^^^ c) 7
  (((n.set i a).set j b).set k c).set l d

def doubleRound (n : State) : State :=
  let n := quarterRound 0 4 8 12 n
  let n := quarterRound 1 5 9 13 n
  let n := quarterRound 2 6 10 14 n
  let n := quarterRound 3 7 11 15 n
  let n := quarterRound 0 5 10 15 n
  let n := quarterRound 1 6 11 12 n
  let n := quarterRound 2 7 8 13 n
  quarterRound 3 4 9 14 n

/-- `for (i = 0; i < rounds; i += 2)`: an odd number of rounds takes one more. -/
def roundsLoop (rounds : Nat) (n : State) : State := doubleRound^[(rounds + 1) / 2] n

def blockAdd32 (dst src : State) : State := Vector.zipWith (· + ·) dst src

/-! ## Copies -/

/-- The 64-bit word `i` of a state, through a `uint64_t *`. -/
def word64 (x : State) (i : Nat) : BitVec 64 := x[2 * i + 1]! ++ x[2 * i]!

def load64 (m : Memory) (p : Nat) : BitVec 64 := word 64 (read m p 8)

def store64 (m : Memory) (p : Nat) (v : BitVec 64) : Memory := write m p (bytes 8 v)

/-- The lines of an unrolled macro, for the offsets 0 to `n - 1`. -/
def lines (n : Nat) (line : Memory → Nat → Memory) (m : Memory) : Memory :=
  (List.range n).foldl line m

def blockCopy2Unalign4 (dst : Nat) (src : State) : Memory → Memory :=
  lines 16 fun m offset => u32To8Little m (dst + offset * 4) src[offset]!

def blockCopyAlign4 (dst : Nat) (src : State) : Memory → Memory :=
  lines 16 fun m offset => store32 m (dst + offset * 4) src[offset]!

def blockCopyAlign8 (dst : Nat) (src : State) : Memory → Memory :=
  lines 8 fun m offset => store64 m (dst + offset * 8) (word64 src offset)

def blockXor2Unalign4 (res a : Nat) (b : State) : Memory → Memory :=
  lines 16 fun m offset =>
    u32To8Little m (res + offset * 4) (u8To32Little m (a + offset * 4) ^^^ b[offset]!)

def blockXorAlign4 (res a : Nat) (b : State) : Memory → Memory :=
  lines 16 fun m offset => store32 m (res + offset * 4) (load32 m (a + offset * 4) ^^^ b[offset]!)

def blockXorAlign8 (res a : Nat) (b : State) : Memory → Memory :=
  lines 8 fun m offset =>
    store64 m (res + offset * 8) (load64 m (a + offset * 8) ^^^ word64 b offset)

/-! ## Blocks -/

/-- `ctx->state[12] ++`, and `ctx->state[13] ++` when it wrapped. -/
def incrementCounter (ctx : Context) : Context :=
  let state := ctx.state.set 12 (ctx.state[12] + 1)
  if state[12] = 0 then { ctx with state := state.set 13 (state[13] + 1) }
  else { ctx with state := state }

def chachaBlock (xorTo : Nat → Nat → State → Memory → Memory)
    (copyTo : Nat → State → Memory → Memory) (ctx : Context) (src : Option Nat) (dst : Nat)
    (m : Memory) : Context × Memory :=
  let x := roundsLoop ctx.rounds ctx.state
  let x := blockAdd32 x ctx.state
  let m := match src with
    | some src => xorTo dst src x m
    | none => copyTo dst x m
  (incrementCounter ctx, m)

def chachaBlockAligned8 := chachaBlock blockXorAlign8 blockCopyAlign8

def chachaBlockAligned4 := chachaBlock blockXorAlign4 blockCopyAlign4

def chachaBlockUnaligneg := chachaBlock blockXor2Unalign4 blockCopy2Unalign4

def chachaBlockAligned (x64 : Bool) := if x64 then chachaBlockAligned8 else chachaBlockAligned4

/-- `CHACHA_PTR_IS_ALIGNED8`, and `CHACHA_PTR_IS_ALIGNED4` with a mask of 3.  The null pointer is
aligned. -/
def ptrIsAligned (mask : Nat) (p : Option Nat) : Bool := p.getD 0 &&& mask == 0

/-- The body of a loop of `chacha_blocks_transform`; a null source stays null. -/
def transformBody (block : Context → Option Nat → Nat → Memory → Context × Memory)
    (st : Context × Option Nat) (m : Memory) (dst : Nat) : (Context × Option Nat) × Memory :=
  let r := block st.1 st.2 dst m
  ((r.1, st.2.map (· + 64)), r.2)

def transformLoop (block : Context → Option Nat → Nat → Memory → Context × Memory) (ctx : Context)
    (src : Option Nat) (blocksCount dst : Nat) (m : Memory) : Context × Memory :=
  let r := overBlocks 64 (transformBody block) blocksCount (ctx, src) m dst
  (r.1.1, r.2)

def chachaBlocksTransform (x64 : Bool) (ctx : Context) (src : Option Nat) (blocksCount dst : Nat)
    (m : Memory) : Context × Memory :=
  if blocksCount = 0 then (ctx, m)
  else if x64 && (ptrIsAligned 7 src && ptrIsAligned 7 (some dst)) then
    transformLoop chachaBlockAligned8 ctx src blocksCount dst m
  else if ptrIsAligned 3 src && ptrIsAligned 3 (some dst) then
    transformLoop chachaBlockAligned4 ctx src blocksCount dst m
  else transformLoop chachaBlockUnaligneg ctx src blocksCount dst m

/-! ## Contexts -/

def chachaConstantsK256 : Vector W 4 := #v[0x61707865, 0x3320646e, 0x79622d32, 0x6b206574]

def chachaConstantsK128 : Vector W 4 := #v[0x61707865, 0x3120646e, 0x79622d36, 0x6b206574]

/-- `chacha_key_set`; entries 12 to 15 of the state stay. -/
def chachaKeySet (state : State) (key : Memory) (keySize : Nat) : State :=
  if keySize = 256 ∨ keySize = 32 then
    #v[chachaConstantsK256.get 0, chachaConstantsK256.get 1, chachaConstantsK256.get 2,
      chachaConstantsK256.get 3,
      u8To32Little key 0, u8To32Little key 4, u8To32Little key 8, u8To32Little key 12,
      u8To32Little key 16, u8To32Little key 20, u8To32Little key 24, u8To32Little key 28,
      state[12], state[13], state[14], state[15]]
  else
    #v[chachaConstantsK128.get 0, chachaConstantsK128.get 1, chachaConstantsK128.get 2,
      chachaConstantsK128.get 3,
      u8To32Little key 0, u8To32Little key 4, u8To32Little key 8, u8To32Little key 12,
      u8To32Little key 0, u8To32Little key 4, u8To32Little key 8, u8To32Little key 12,
      state[12], state[13], state[14], state[15]]

def chachaCounterSet (state : State) : Option Memory → State
  | none => (state.set 12 0).set 13 0
  | some counter => (state.set 12 (u8To32Little counter 0)).set 13 (u8To32Little counter 4)

def chachaIvSet (state : State) : Option Memory → State
  | none => (state.set 14 0).set 15 0
  | some iv => (state.set 14 (u8To32Little iv 0)).set 15 (u8To32Little iv 4)

/-- `hchacha`: the words it stores at `dst`. -/
def hchacha (key : Memory) (keySize : Nat) (iv : Option Memory) (rounds : Nat) : Vector W 8 :=
  -- The entries the key leaves alone are set next.
  let state := chachaKeySet (Vector.replicate 16 0) key keySize
  let state := match iv with
    | some iv => (((state.set 12 (u8To32Little iv 0)).set 13 (u8To32Little iv 4)).set 14
        (u8To32Little iv 8)).set 15 (u8To32Little iv 12)
    | none => (((state.set 12 0).set 13 0).set 14 0).set 15 0
  let state := roundsLoop rounds state
  #v[state[0], state[1], state[2], state[3], state[12], state[13], state[14], state[15]]

/-- `chacha_init` on a context that holds anything. -/
def chachaInit (ctx : Context) (key : Memory) (keySize : Nat) (counter iv : Option Memory)
    (rounds : Nat) : Context :=
  let state := chachaKeySet ctx.state key keySize
  let state := chachaCounterSet state counter
  let state := chachaIvSet state iv
  { state, rounds }

/-- `xchacha_set_key_iv_rounds`; `hchacha` stores into entries 4 to 11. -/
def xchachaSetKeyIvRounds (ctx : Context) (key : Memory) (keySize : Nat) (iv : Option Memory)
    (rounds : Nat) : Context :=
  let sub := hchacha key keySize iv rounds
  let state := #v[chachaConstantsK256.get 0, chachaConstantsK256.get 1, chachaConstantsK256.get 2,
    chachaConstantsK256.get 3, sub.get 0, sub.get 1, sub.get 2, sub.get 3, sub.get 4, sub.get 5,
    sub.get 6, sub.get 7,
    ctx.state[12], ctx.state[13], ctx.state[14], ctx.state[15]]
  { state := chachaIvSet state (iv.map fun iv a => iv (16 + a)), rounds }

def xchachaInit (ctx : Context) (key : Memory) (keySize : Nat) (counter iv : Option Memory)
    (rounds : Nat) : Context :=
  let ctx := xchachaSetKeyIvRounds ctx key keySize iv rounds
  { ctx with state := chachaCounterSet ctx.state counter }

/-- `chacha_str_init`, and `xchacha_str_init` with `xchacha_init`. -/
def strInit (init : Context → Memory → Nat → Option Memory → Option Memory → Nat → Context)
    (ctx : ContextStr) (key : Memory) (keySize : Nat) (counter iv : Option Memory) (rounds : Nat) :
    ContextStr :=
  { ctx with c := init ctx.c key keySize counter iv rounds, ksLen := 0 }

def chachaStrInit := strInit chachaInit

def xchachaStrInit := strInit xchachaInit

/-! ## Streams -/

/-- The bytes `src[0]`, `src[1]` and so on; a null source adds nothing to the key stream. -/
def input (m : Memory) (src : Option Nat) (i : Nat) : Byte :=
  match src with
  | some src => m (src + i)
  | none => 0#8

/-- The first part of `chacha_str_data_crypt`: `count` bytes of the saved key stream. -/
def savedCrypt (ctx : ContextStr) (src : Option Nat) (count dst : Nat) (m : Memory) : Memory :=
  let ptr := 64 - ctx.ksLen
  match src with
  | some src => (List.range count).foldl
      (fun m i => write m (dst + i) [m (src + i) ^^^ ctx.ks (ptr + i)]) m
  | none => write m dst (read ctx.ks ptr count)

/-- The last part: a block that `bytes` bytes of the source begin. -/
def tailCrypt (x64 : Bool) (ctx : ContextStr) (src : Option Nat) (bytes dst : Nat) (m : Memory) :
    ContextStr × Memory :=
  if bytes = 0 then (ctx, m)
  else
    let ksLen := 64 - bytes
    let (src, ks) : Option Nat × Memory := match src with
      | some src => (some 0, write (write ctx.ks 0 (read m src bytes)) bytes (.replicate ksLen 0))
      | none => (none, ctx.ks)
    let (c, ks) := chachaBlockAligned x64 ctx.c src 0 ks
    ({ c, ksLen, ks }, write m dst (read ks 0 bytes))

def blocksCrypt (x64 : Bool) (ctx : ContextStr) (src : Option Nat) (bytes dst : Nat) (m : Memory) :
    ContextStr × Memory :=
  if bytes ≥ 64 then
    let count := bytes / 64
    let (c, m) := chachaBlocksTransform x64 ctx.c src count dst m
    let count := count * 64
    tailCrypt x64 { ctx with c } (src.map (· + count)) (bytes - count) (dst + count) m
  else tailCrypt x64 ctx src bytes dst m

def chachaStrDataCrypt (x64 : Bool) (ctx : ContextStr) (src : Option Nat) (bytes dst : Nat)
    (m : Memory) : ContextStr × Memory :=
  if bytes = 0 then (ctx, m)
  else
    let count := ctx.ksLen
    if count ≠ 0 then
      let count := if count > bytes then bytes else count
      let m := savedCrypt ctx src count dst m
      let src := src.map (· + count)
      let ctx := { ctx with ksLen := ctx.ksLen - count }
      let dst := dst + count
      let bytes := bytes - count
      if bytes = 0 then (ctx, m) else blocksCrypt x64 ctx src bytes dst m
    else blocksCrypt x64 ctx src bytes dst m

/-- `chacha`, and `xchacha` with `xchacha_init`: the context on the stack holds anything. -/
def oneShot (init : Context → Memory → Nat → Option Memory → Option Memory → Nat → Context)
    (x64 : Bool) (stack : ContextStr) (key : Memory) (keySize : Nat) (counter iv : Option Memory)
    (rounds : Nat) (src : Option Nat) (bytes dst : Nat) (m : Memory) : Memory :=
  if bytes = 0 then m
  else (chachaStrDataCrypt x64 (strInit init stack key keySize counter iv rounds) src bytes dst m).2

def chacha := oneShot chachaInit

def xchacha := oneShot xchachaInit

/-!
# The ChaCha key stream

The cipher in its own terms: the state is a matrix of words, a double round works on its columns and
then on its diagonals, and block `i` of the key stream is the block function at the counter of the
start plus `i`.  The block functions of the header add that stream to their source, by any of the
three paths.
-/

/-! ## The cipher -/

def quarter (a b c d : W) : Vector W 4 :=
  let a := a + b; let d := (d ^^^ a).rotateLeft 16
  let c := c + d; let b := (b ^^^ c).rotateLeft 12
  let a := a + b; let d := (d ^^^ a).rotateLeft 8
  let c := c + d; let b := (b ^^^ c).rotateLeft 7
  #v[a, b, c, d]

def columnRound (x : State) : State :=
  let col (i : Fin 4) := quarter x[i.val] x[4 + i.val] x[8 + i.val] x[12 + i.val]
  Vector.ofFn fun k : Fin 16 => (col ⟨k.val % 4, Nat.mod_lt _ (by decide)⟩)[k.val / 4]

/-- Row `r` turned left by `r` places, so that the diagonals are columns. -/
def turnRows (x : State) : State :=
  Vector.ofFn fun k : Fin 16 => x[4 * (k.val / 4) + (k.val + k.val / 4) % 4]

/-- Row `r` turned right by `r` places. -/
def turnBack (x : State) : State :=
  Vector.ofFn fun k : Fin 16 => x[4 * (k.val / 4) + (k.val + 3 * (k.val / 4)) % 4]

def cipherRounds (rounds : Nat) : State → State :=
  (fun x => turnBack (columnRound (turnRows (columnRound x))))^[rounds / 2]

/-- The block function. -/
def blockFunction (rounds : Nat) (x : State) : State :=
  Vector.ofFn fun k : Fin 16 => (cipherRounds rounds x)[k] + x[k]

/-- Byte `j` of a matrix in its order. -/
def stateByte (x : State) (j : Nat) : Byte := (x[j / 4]! >>> (8 * (j % 4))).setWidth 8

def ofBytes (bs : List Byte) : State := Vector.ofFn fun k : Fin 16 => word 32 ((bs.drop (4 * k)).take 4)

def initial (constant key : List Byte) (counter : BitVec 64) (iv : List Byte) : State :=
  ofBytes (constant ++ key ++ bytes 8 counter ++ iv)

/-- Byte `j` of the key stream from a block counter on. -/
def keyStream (rounds : Nat) (constant key : List Byte) (start : BitVec 64) (iv : List Byte)
    (j : Nat) : Byte :=
  stateByte (blockFunction rounds (initial constant key (start + BitVec.ofNat 64 (j / 64)) iv))
    (j % 64)

/-! ## Rounds -/

theorem rotl32_eq {v : W} {n : Nat} (hn : n < 32) : rotl32 v n = v.rotateLeft n := by
  rw [BitVec.rotateLeft_def, Nat.mod_eq_of_lt hn]
  rfl


section QuarterRound

variable {i j k l : Fin 16} {x : State}

theorem quarterRound_eq : quarterRound i j k l x =
    (((x.set i (quarter x[i.val] x[j.val] x[k.val] x[l.val])[0]).set j
      (quarter x[i.val] x[j.val] x[k.val] x[l.val])[1]).set k
      (quarter x[i.val] x[j.val] x[k.val] x[l.val])[2]).set l
      (quarter x[i.val] x[j.val] x[k.val] x[l.val])[3] := by
  simp only [quarterRound, rotl32_eq (by decide : 16 < 32), rotl32_eq (by decide : 12 < 32),
    rotl32_eq (by decide : 8 < 32), rotl32_eq (by decide : 7 < 32)]
  rfl

theorem getElem_quarterRound {m : Nat} (hm : m < 16) : (quarterRound i j k l x)[m] =
    if l.val = m then (quarter x[i.val] x[j.val] x[k.val] x[l.val])[3]
    else if k.val = m then (quarter x[i.val] x[j.val] x[k.val] x[l.val])[2]
    else if j.val = m then (quarter x[i.val] x[j.val] x[k.val] x[l.val])[1]
    else if i.val = m then (quarter x[i.val] x[j.val] x[k.val] x[l.val])[0]
    else x[m] := by
  simp only [quarterRound_eq, Vector.getElem_set]

end QuarterRound

theorem columns_eq (x : State) :
    quarterRound 3 7 11 15 (quarterRound 2 6 10 14 (quarterRound 1 5 9 13
      (quarterRound 0 4 8 12 x))) = columnRound x := by
  apply Vector.ext
  intro i hi
  rw [columnRound, Vector.getElem_ofFn]
  interval_cases i <;> simp [getElem_quarterRound]

theorem diagonals_eq (x : State) :
    quarterRound 3 4 9 14 (quarterRound 2 7 8 13 (quarterRound 1 6 11 12
      (quarterRound 0 5 10 15 x))) = turnBack (columnRound (turnRows x)) := by
  apply Vector.ext
  intro i hi
  rw [turnBack, Vector.getElem_ofFn]
  interval_cases i <;> simp [getElem_quarterRound, columnRound, turnRows]

theorem roundsLoop_eq {rounds : Nat} (heven : rounds % 2 = 0) (x : State) :
    roundsLoop rounds x = cipherRounds rounds x := by
  have hhalf : (rounds + 1) / 2 = rounds / 2 := by omega
  have hdouble : doubleRound =
      fun x => turnBack (columnRound (turnRows (columnRound x))) := by
    funext x
    rw [← diagonals_eq, ← columns_eq]
    rfl
  rw [roundsLoop, cipherRounds, hhalf, hdouble]

theorem blockAdd32_eq {rounds : Nat} (heven : rounds % 2 = 0) (x : State) :
    blockAdd32 (roundsLoop rounds x) x = blockFunction rounds x := by
  apply Vector.ext
  intro i hi
  rw [blockAdd32, Vector.getElem_zipWith, blockFunction, Vector.getElem_ofFn, roundsLoop_eq heven]
  rfl

/-!
# The ChaCha block functions add the key stream

Whatever path the alignment of the buffers takes, a block function leaves its source with one block
of the key stream added and counts one block on, so a run of blocks adds the key stream from the
counter it starts at.
-/

/-! ## Copies -/

section Copies

variable {x : State} {dst : Nat} {m : Memory}

theorem byte_word64 {o j : Nat} (hj : j < 8) :
    (word64 x o >>> (8 * j)).setWidth 8 = stateByte x (8 * o + j) := by
  apply BitVec.eq_of_getLsbD_eq
  intro i hi
  have hmod : (8 * o + j) % 4 = j % 4 := by omega
  simp only [word64, stateByte, BitVec.getLsbD_setWidth, BitVec.getLsbD_ushiftRight,
    BitVec.getLsbD_append, hmod]
  by_cases hlow : j < 4
  · have hdiv : (8 * o + j) / 4 = 2 * o := by omega
    rw [hdiv, Nat.mod_eq_of_lt hlow, if_pos (by omega)]
  · have hdiv : (8 * o + j) / 4 = 2 * o + 1 := by omega
    have hoff : 8 * j + i - 32 = 8 * (j % 4) + i := by omega
    rw [hdiv, if_neg (by omega), hoff]

theorem byte_word32 {o j : Nat} (hj : j < 4) :
    (x[o]! >>> (8 * j)).setWidth 8 = stateByte x (4 * o + j) := by
  have hdiv : (4 * o + j) / 4 = o := by omega
  have hmod : (4 * o + j) % 4 = j := by omega
  rw [stateByte, hdiv, hmod]

theorem bytes_word_xor {w k : Nat} {p : Nat} (v : BitVec w) (h : 8 * k ≤ w) :
    bytes k (word w (read m p k) ^^^ v) =
      (List.range k).map fun j => m (p + j) ^^^ (v >>> (8 * j)).setWidth 8 := by
  rw [bytes_xor, bytes_word length_read h, bytes_eq_map, ByteMem.read,
    List.zipWith_map, List.zipWith_self]

theorem input_of_apart {m m' : Memory} {src : Option Nat} {n k o j : Nat}
    (h : ∀ s, src = some s → Apart s dst n) (hj : k * o + j < n)
    (hm : ∀ a, a < dst ∨ dst + k * o ≤ a → m' a = m a) :
    input m' src (k * o + j) = input m src (k * o + j) := by
  cases src with
  | none => rfl
  | some s =>
    apply hm
    have happart := h s rfl
    unfold Apart at happart
    omega

/-- What a copy of a block leaves, with the source it adds to. -/
def added (m : Memory) (src : Option Nat) (ks : Nat → Byte) (n : Nat) : List Byte :=
  (List.range n).map fun j => input m src j ^^^ ks j

@[simp] theorem length_added {src : Option Nat} {ks : Nat → Byte} {n : Nat} :
    (added m src ks n).length = n := by
  rw [added, List.length_map, List.length_range]

theorem lines_eq {k n : Nat} {src : Option Nat} {line : Memory → Nat → Memory}
    (hsrc : ∀ s, src = some s → Apart s dst (k * n))
    (hline : ∀ m o, line m o = write m (dst + o * k)
      ((List.range k).map fun j => input m src (k * o + j) ^^^ stateByte x (k * o + j))) :
    lines n line m = write m dst (added m src (stateByte x) (k * n)) := by
  apply foldl_lines_eq
  · exact hline
  · intro o ho j hj m' hm
    have hlast : k * (o + 1) ≤ k * n := Nat.mul_le_mul_left k ho
    have hstep : k * (o + 1) = k * o + k := Nat.mul_succ k o
    rw [input_of_apart hsrc (by omega) hm]

theorem no_source {n : Nat} {s : Nat} (h : none = some s) : Apart s dst n := by contradiction

theorem blockCopyAlign4_eq :
    blockCopyAlign4 dst x m = write m dst (added m none (stateByte x) 64) := by
  apply lines_eq (k := 4) (n := 16) fun _ => no_source
  intro m o
  rw [store32, bytes_eq_map]
  congr 1
  apply List.map_congr_left
  intro j hj
  rw [byte_word32 (List.mem_range.mp hj), input, BitVec.zero_xor]

theorem blockCopyAlign8_eq :
    blockCopyAlign8 dst x m = write m dst (added m none (stateByte x) 64) := by
  apply lines_eq (k := 8) (n := 8) fun _ => no_source
  intro m o
  rw [store64, bytes_eq_map]
  congr 1
  apply List.map_congr_left
  intro j hj
  rw [byte_word64 (List.mem_range.mp hj), input, BitVec.zero_xor]

theorem blockCopy2Unalign4_eq :
    blockCopy2Unalign4 dst x m = write m dst (added m none (stateByte x) 64) := by
  rw [← blockCopyAlign4_eq, blockCopy2Unalign4, blockCopyAlign4]
  simp only [u32To8Little_eq]

variable {src : Nat}

theorem blockXorAlign4_eq (h : Apart src dst 64) :
    blockXorAlign4 dst src x m = write m dst (added m (some src) (stateByte x) 64) := by
  apply lines_eq (k := 4) (n := 16)
  · intro s hs
    cases hs
    exact h
  · intro m o
    rw [store32, load32, bytes_word_xor _ (by decide)]
    congr 1
    apply List.map_congr_left
    intro j hj
    rw [byte_word32 (List.mem_range.mp hj), input, Nat.mul_comm o 4, Nat.add_assoc]

theorem blockXorAlign8_eq (h : Apart src dst 64) :
    blockXorAlign8 dst src x m = write m dst (added m (some src) (stateByte x) 64) := by
  apply lines_eq (k := 8) (n := 8)
  · intro s hs
    cases hs
    exact h
  · intro m o
    rw [store64, load64, bytes_word_xor _ (by decide)]
    congr 1
    apply List.map_congr_left
    intro j hj
    rw [byte_word64 (List.mem_range.mp hj), input, Nat.mul_comm o 8, Nat.add_assoc]

theorem blockXor2Unalign4_eq (h : Apart src dst 64) :
    blockXor2Unalign4 dst src x m = write m dst (added m (some src) (stateByte x) 64) := by
  rw [← blockXorAlign4_eq h, blockXor2Unalign4, blockXorAlign4]
  simp only [u32To8Little_eq, u8To32Little_eq]

end Copies

/-! ## The counter -/

def counterOf (x : State) : BitVec 64 := x[13] ++ x[12]

def atCounter (x : State) (n : BitVec 64) : State :=
  (x.set 12 (n.setWidth 32)).set 13 ((n >>> 32).setWidth 32)

theorem toNat_counter (hi lo : W) : ((hi ++ lo : BitVec 64)).toNat = hi.toNat * 2 ^ 32 + lo.toNat := by
  rw [BitVec.toNat_append, ← Nat.shiftLeft_add_eq_or_of_lt lo.isLt, Nat.shiftLeft_eq]

@[simp] theorem counterOf_atCounter (x : State) (n : BitVec 64) : counterOf (atCounter x n) = n := by
  have hlo : (atCounter x n)[12] = n.setWidth 32 := by simp [atCounter]
  have hhi : (atCounter x n)[13] = (n >>> 32).setWidth 32 := by simp [atCounter]
  apply BitVec.eq_of_toNat_eq
  have hn := n.isLt
  rw [counterOf, hlo, hhi, toNat_counter, BitVec.toNat_setWidth, BitVec.toNat_setWidth,
    BitVec.toNat_ushiftRight, Nat.shiftRight_eq_div_pow]
  omega

@[simp] theorem atCounter_atCounter (x : State) (n n' : BitVec 64) :
    atCounter (atCounter x n) n' = atCounter x n' := by
  apply Vector.ext
  intro i hi
  simp only [atCounter, Vector.getElem_set]
  by_cases h13 : 13 = i
  · rw [if_pos h13, if_pos h13]
  · by_cases h12 : 12 = i
    · simp [h13, h12]
    · simp [h13, h12]

theorem atCounter_counterOf (x : State) : atCounter x (counterOf x) = x := by
  have hcount := toNat_counter x[13] x[12]
  have hlo : (counterOf x).setWidth 32 = x[12] := by
    apply BitVec.eq_of_toNat_eq
    rw [BitVec.toNat_setWidth, counterOf, hcount]
    have := x[12].isLt
    omega
  have hhi : (counterOf x >>> 32).setWidth 32 = x[13] := by
    apply BitVec.eq_of_toNat_eq
    rw [BitVec.toNat_setWidth, BitVec.toNat_ushiftRight, Nat.shiftRight_eq_div_pow, counterOf,
      hcount]
    have := x[12].isLt
    have := x[13].isLt
    omega
  rw [atCounter, hlo, hhi, Vector.set_getElem_self, Vector.set_getElem_self]

theorem incrementCounter_eq (ctx : Context) :
    incrementCounter ctx =
      { ctx with state := atCounter ctx.state (counterOf ctx.state + 1) } := by
  have hcount : (counterOf ctx.state + 1).toNat =
      (ctx.state[13].toNat * 2 ^ 32 + ctx.state[12].toNat + 1) % 2 ^ 64 := by
    rw [BitVec.toNat_add, counterOf, toNat_counter]
    rfl
  have h12 := ctx.state[12].isLt
  have h13 := ctx.state[13].isLt
  have hlo : (counterOf ctx.state + 1).setWidth 32 = ctx.state[12] + 1 := by
    apply BitVec.eq_of_toNat_eq
    rw [BitVec.toNat_setWidth, hcount, BitVec.toNat_add, show (1 : W).toNat = 1 from rfl]
    omega
  have hzero : ctx.state[12] + 1 = 0 ↔ ctx.state[12].toNat + 1 = 2 ^ 32 := by
    rw [← BitVec.toNat_inj, BitVec.toNat_add, show (1 : W).toNat = 1 from rfl,
      show (0 : W).toNat = 0 from rfl]
    omega
  have hset : (ctx.state.set 12 (ctx.state[12] + 1))[12] = ctx.state[12] + 1 := by simp
  have hkeep : (ctx.state.set 12 (ctx.state[12] + 1))[13] = ctx.state[13] := by
    simp
  simp only [incrementCounter, atCounter, hset, hkeep, hlo]
  by_cases hwrap : ctx.state[12] + 1 = 0
  · -- The low word wrapped.
    have hhi : ((counterOf ctx.state + 1) >>> 32).setWidth 32 = ctx.state[13] + 1 := by
      have := hzero.mp hwrap
      apply BitVec.eq_of_toNat_eq
      rw [BitVec.toNat_setWidth, BitVec.toNat_ushiftRight, Nat.shiftRight_eq_div_pow, hcount,
        BitVec.toNat_add, show (1 : W).toNat = 1 from rfl]
      omega
    rw [if_pos hwrap, hhi]
  · have hhi : ((counterOf ctx.state + 1) >>> 32).setWidth 32 = ctx.state[13] := by
      have := mt hzero.mpr hwrap
      apply BitVec.eq_of_toNat_eq
      rw [BitVec.toNat_setWidth, BitVec.toNat_ushiftRight, Nat.shiftRight_eq_div_pow, hcount]
      omega
    rw [if_neg hwrap, hhi, ← hkeep, Vector.set_getElem_self]

/-- The context `i` blocks on. -/
def Context.after (ctx : Context) (i : Nat) : Context :=
  { ctx with state := atCounter ctx.state (counterOf ctx.state + BitVec.ofNat 64 i) }

theorem Context.after_zero (ctx : Context) : ctx.after 0 = ctx := by
  rw [Context.after, BitVec.add_zero, atCounter_counterOf]

theorem Context.after_after (ctx : Context) (i j : Nat) : (ctx.after i).after j = ctx.after (i + j) := by
  simp only [Context.after, counterOf_atCounter, atCounter_atCounter, BitVec.ofNat_add,
    BitVec.add_assoc]

/-! ## Blocks -/

/-- The key stream from the counter of a context on. -/
def Context.stream (ctx : Context) (j : Nat) : Byte :=
  stateByte (blockFunction ctx.rounds (ctx.after (j / 64)).state) (j % 64)

theorem Context.stream_after (ctx : Context) (i j : Nat) :
    (ctx.after i).stream j = ctx.stream (64 * i + j) := by
  have hdiv : (64 * i + j) / 64 = i + j / 64 := by omega
  have hmod : (64 * i + j) % 64 = j % 64 := by omega
  rw [Context.stream, Context.stream, Context.after_after, hdiv, hmod]
  rfl

def AddsBlock (block : Context → Option Nat → Nat → Memory → Context × Memory) : Prop :=
  ∀ ctx src dst m, ctx.rounds % 2 = 0 → (∀ s, src = some s → Apart s dst 64) →
    block ctx src dst m = (ctx.after 1, write m dst (added m src ctx.stream 64))

theorem added_congr {m : Memory} {src : Option Nat} {ks ks' : Nat → Byte} {n : Nat}
    (h : ∀ j < n, ks j = ks' j) : added m src ks n = added m src ks' n := by
  apply List.map_congr_left
  intro j hj
  rw [h j (List.mem_range.mp hj)]

theorem addsBlock_chachaBlock {xorTo : Nat → Nat → State → Memory → Memory}
    {copyTo : Nat → State → Memory → Memory}
    (hxor : ∀ dst src x m, Apart src dst 64 →
      xorTo dst src x m = write m dst (added m (some src) (stateByte x) 64))
    (hcopy : ∀ dst x m, copyTo dst x m = write m dst (added m none (stateByte x) 64)) :
    AddsBlock (chachaBlock xorTo copyTo) := by
  intro ctx src dst m heven hsrc
  have hstream : added m src (stateByte (blockFunction ctx.rounds ctx.state)) 64 =
      added m src ctx.stream 64 := by
    apply added_congr
    intro j hj
    have hdiv : j / 64 = 0 := by omega
    rw [Context.stream, hdiv, Nat.mod_eq_of_lt hj, Context.after_zero]
  have hnext : incrementCounter ctx = ctx.after 1 := by
    rw [incrementCounter_eq]
    rfl
  simp only [chachaBlock, blockAdd32_eq heven, hnext, ← hstream]
  cases src with
  | none => exact congrArg (Prod.mk _) (hcopy ..)
  | some s => exact congrArg (Prod.mk _) (hxor _ _ _ _ (hsrc s rfl))

theorem addsBlock_aligned8 : AddsBlock chachaBlockAligned8 :=
  addsBlock_chachaBlock (fun _ _ _ _ => blockXorAlign8_eq) fun _ _ _ => blockCopyAlign8_eq

theorem addsBlock_aligned4 : AddsBlock chachaBlockAligned4 :=
  addsBlock_chachaBlock (fun _ _ _ _ => blockXorAlign4_eq) fun _ _ _ => blockCopyAlign4_eq

theorem addsBlock_unaligneg : AddsBlock chachaBlockUnaligneg :=
  addsBlock_chachaBlock (fun _ _ _ _ => blockXor2Unalign4_eq) fun _ _ _ => blockCopy2Unalign4_eq

theorem addsBlock_aligned (x64 : Bool) : AddsBlock (chachaBlockAligned x64) := by
  cases x64 with
  | true => exact addsBlock_aligned8
  | false => exact addsBlock_aligned4

/-- Blocks one after the other add the key stream, in place too. -/
theorem transformLoop_eq {block : Context → Option Nat → Nat → Memory → Context × Memory}
    (hblock : AddsBlock block) {ctx : Context} {src : Option Nat} {n dst : Nat} {m : Memory}
    (heven : ctx.rounds % 2 = 0) (hsrc : ∀ s, src = some s → Apart s dst (64 * n)) :
    transformLoop block ctx src n dst m =
      (ctx.after n, write m dst (added m src ctx.stream (64 * n))) := by
  let next : Context × Option Nat → Context × Option Nat := fun st =>
    (st.1.after 1, st.2.map (· + 64))
  let out : Context × Option Nat → Memory → List Byte := fun st m => added m st.2 st.1.stream 64
  have hiter : ∀ i, next^[i] (ctx, src) = (ctx.after i, src.map (· + 64 * i)) := by
    intro i
    induction i with
    | zero => cases src with
      | none => simp [Context.after_zero]
      | some s => simp [Context.after_zero]
    | succ i ih =>
      rw [Function.iterate_succ_apply', ih]
      simp only [next, Context.after_after, Option.map_map, Nat.mul_succ]
      rfl
  -- Block `i` adds its part of the stream to its part of the source.
  have hout : ∀ i m, out (next^[i] (ctx, src)) m =
      (List.range 64).map fun j => input m src (64 * i + j) ^^^ ctx.stream (64 * i + j) := by
    intro i m
    rw [hiter]
    apply List.map_congr_left
    intro j _
    rw [Context.stream_after]
    cases src with
    | none => rfl
    | some s => rw [Option.map_some, input, input, Nat.add_assoc]
  have hbody : ∀ i < n, ∀ m', transformBody block (next^[i] (ctx, src)) m' (dst + 64 * i) =
      (next (next^[i] (ctx, src)), write m' (dst + 64 * i) (out (next^[i] (ctx, src)) m')) := by
    intro i hi m'
    have hpart : ∀ s, src.map (· + 64 * i) = some s → Apart s (dst + 64 * i) 64 := by
      intro s hs
      obtain ⟨s', hs', rfl⟩ := Option.map_eq_some_iff.mp hs
      have hlast : 64 * (i + 1) ≤ 64 * n := Nat.mul_le_mul_left 64 hi
      have happart := hsrc s' hs'
      unfold Apart at happart ⊢
      omega
    rw [hiter]
    dsimp only [transformBody]
    rw [hblock (ctx.after i) _ _ _ heven hpart]
  have hframe : ∀ i < n, ∀ m', (∀ a, a < dst ∨ dst + 64 * i ≤ a → m' a = m a) →
      out (next^[i] (ctx, src)) m' = out (next^[i] (ctx, src)) m := by
    intro i hi m' hm
    rw [hout, hout]
    apply List.map_congr_left
    intro j hj
    have hj := List.mem_range.mp hj
    rw [input_of_apart hsrc (by omega) hm]
  have hloop := overBlocks_eq hbody (fun _ _ => length_added) hframe
  have hall : ((List.range n).flatMap fun i => out (next^[i] (ctx, src)) m) =
      added m src ctx.stream (64 * n) := by
    simp only [hout]
    exact flatMap_range_blocks (fun j => input m src j ^^^ ctx.stream j) n
  rw [hall, hiter] at hloop
  rw [transformLoop, hloop]

theorem chachaBlocksTransform_eq (x64 : Bool) {ctx : Context} {src : Option Nat} {n dst : Nat}
    {m : Memory} (heven : ctx.rounds % 2 = 0)
    (hsrc : ∀ s, src = some s → Apart s dst (64 * n)) :
    chachaBlocksTransform x64 ctx src n dst m =
      (ctx.after n, write m dst (added m src ctx.stream (64 * n))) := by
  unfold chachaBlocksTransform
  split
  next hzero =>
    rw [hzero, Context.after_zero]
    exact congrArg (Prod.mk ctx) write_nil.symm
  next =>
    split
    · exact transformLoop_eq addsBlock_aligned8 heven hsrc
    · split
      · exact transformLoop_eq addsBlock_aligned4 heven hsrc
      · exact transformLoop_eq addsBlock_unaligneg heven hsrc

/-!
# ChaCha and XChaCha contexts

The contexts that the init functions set up are the matrices of the cipher: constant, key, counter and
iv in their order.  A short key fills both of its rows.  XChaCha sets up the cipher with a key that
the first 16 bytes of the iv derive from the caller's.
-/

/-- The bytes of the constant of a key: `expand 32-byte k` or `expand 16-byte k`. -/
def constantOf (keySize : Nat) : List Byte :=
  if keySize = 256 ∨ keySize = 32 then
    [0x65, 0x78, 0x70, 0x61, 0x6e, 0x64, 0x20, 0x33, 0x32, 0x2d, 0x62, 0x79, 0x74, 0x65, 0x20, 0x6b]
  else
    [0x65, 0x78, 0x70, 0x61, 0x6e, 0x64, 0x20, 0x31, 0x36, 0x2d, 0x62, 0x79, 0x74, 0x65, 0x20, 0x6b]

/-- The 32 bytes of the rows of a key. -/
def keyBytes (key : Memory) (keySize : Nat) : List Byte :=
  if keySize = 256 ∨ keySize = 32 then read key 0 32 else read key 0 16 ++ read key 0 16

/-- `n` bytes of a counter or an iv from `p` on; without one they are zeros. -/
def optional (p n : Nat) : Option Memory → List Byte
  | none => .replicate n 0
  | some m => read m p n

/-- The counter a message starts at. -/
def startOf (counter : Option Memory) : BitVec 64 := word 64 (optional 0 8 counter)

/-- The key of XChaCha: the first and the last row after the rounds, from the first bytes of the iv in
the places of counter and iv. -/
def subKey (rounds : Nat) (key : Memory) (keySize : Nat) (iv : Option Memory) : List Byte :=
  let x := cipherRounds rounds (ofBytes (constantOf keySize ++ keyBytes key keySize ++
    optional 0 16 iv))
  [0, 1, 2, 3, 12, 13, 14, 15].flatMap fun i : Fin 16 => bytes 4 x[i]

/-! ## Words of a run of bytes -/

/-- Word `k` of a run of bytes. -/
def wordAt (bs : List Byte) (k : Nat) : W := word 32 ((bs.drop (4 * k)).take 4)

theorem wordAt_append_left {a b : List Byte} {k : Nat} (h : 4 * k + 4 ≤ a.length) :
    wordAt (a ++ b) k = wordAt a k := by
  rw [wordAt, wordAt, List.drop_append_of_le_length (by omega),
    List.take_append_of_le_length (by rw [List.length_drop]; omega)]

theorem wordAt_append_right {a b : List Byte} {n k : Nat} (hlen : a.length = 4 * n) :
    wordAt (a ++ b) (n + k) = wordAt b k := by
  have hdrop : 4 * (n + k) = a.length + 4 * k := by omega
  rw [wordAt, wordAt, hdrop, List.drop_append, List.drop_eq_nil_of_le (by omega), List.nil_append,
    Nat.add_sub_cancel_left]

theorem wordAt_read {m : Memory} {p n k : Nat} (h : 4 * k + 4 ≤ n) :
    wordAt (read m p n) k = load32 m (p + 4 * k) := by
  obtain ⟨r, rfl⟩ : ∃ r, n = 4 * k + (4 + r) := ⟨n - 4 * k - 4, by omega⟩
  rw [wordAt, read_append, List.drop_left' length_read, read_append, List.take_left' length_read, load32]

theorem wordAt_replicate {n k : Nat} (h : 4 * k + 4 ≤ n) : wordAt (.replicate n 0) k = 0 := by
  rw [wordAt, List.drop_replicate, List.take_replicate, Nat.min_eq_left (by omega)]
  rfl

@[simp] theorem length_constantOf (keySize : Nat) : (constantOf keySize).length = 16 := by
  unfold constantOf
  split <;> rfl

@[simp] theorem length_keyBytes (key : Memory) (keySize : Nat) : (keyBytes key keySize).length = 32 := by
  unfold keyBytes
  split
  · exact length_read
  · rw [List.length_append, length_read]

@[simp] theorem length_optional (p n : Nat) (m : Option Memory) : (optional p n m).length = n := by
  cases m with
  | none => exact List.length_replicate
  | some m => exact length_read

theorem wordAt_optional_none {p n k : Nat} (h : 4 * k + 4 ≤ n) : wordAt (optional p n none) k = 0 :=
  wordAt_replicate h

theorem wordAt_optional_some {p n k : Nat} {m : Memory} (h : 4 * k + 4 ≤ n) :
    wordAt (optional p n (some m)) k = u8To32Little m (p + 4 * k) := by
  rw [u8To32Little_eq]
  exact wordAt_read h

theorem bytes_startOf (counter : Option Memory) : bytes 8 (startOf counter) = optional 0 8 counter :=
  bytes_word (length_optional ..) (by decide)

theorem wordAt_bytes (n : BitVec 64) :
    wordAt (bytes 8 n) 0 = n.setWidth 32 ∧ wordAt (bytes 8 n) 1 = (n >>> 32).setWidth 32 := by
  have hsplit : bytes 8 n = bytes 4 n ++ bytes 4 (n >>> 32) := bytes_add 4 4 n
  apply And.intro
  · rw [hsplit, wordAt_append_left (by rw [length_bytes]), wordAt, List.drop_zero,
      List.take_of_length_le (by rw [length_bytes]), word_bytes_setWidth n (by decide)]
  · have hright := wordAt_append_right (a := bytes 4 n) (b := bytes 4 (n >>> 32)) (n := 1) (k := 0)
      length_bytes
    rw [hsplit, hright, wordAt, List.drop_zero, List.take_of_length_le (by rw [length_bytes]),
      word_bytes_setWidth (n >>> 32) (by decide)]

theorem getElem_ofBytes {bs : List Byte} {i : Nat} (hi : i < 16) : (ofBytes bs)[i] = wordAt bs i := by
  rw [ofBytes, Vector.getElem_ofFn, wordAt]

theorem wordAt_matrix {ck c v : List Byte} (hck : ck.length = 48) (hc : c.length = 8) {i : Nat}
    (hi : i < 16) :
    wordAt (ck ++ c ++ v) i =
      if i < 12 then wordAt ck i else if i < 14 then wordAt c (i - 12) else wordAt v (i - 14) := by
  by_cases h12 : i < 12
  · rw [if_pos h12, List.append_assoc, wordAt_append_left (by omega)]
  · by_cases h14 : i < 14
    · obtain ⟨k, rfl⟩ : ∃ k, i = 12 + k := ⟨i - 12, by omega⟩
      rw [if_neg h12, if_pos h14, wordAt_append_left (by rw [List.length_append]; omega),
        wordAt_append_right hck, Nat.add_sub_cancel_left]
    · obtain ⟨k, rfl⟩ : ∃ k, i = 14 + k := ⟨i - 14, by omega⟩
      rw [if_neg h12, if_neg h14, wordAt_append_right (by rw [List.length_append]; omega),
        Nat.add_sub_cancel_left]

/-! ## Counters of the matrix -/

section Initial

variable {constant key iv : List Byte} {start n : BitVec 64}

theorem getElem_initial (hck : (constant ++ key).length = 48) {i : Nat} (hi : i < 16) :
    (initial constant key n iv)[i] =
      if i < 12 then wordAt (constant ++ key) i
      else if i < 14 then wordAt (bytes 8 n) (i - 12) else wordAt iv (i - 14) := by
  rw [initial, getElem_ofBytes, wordAt_matrix hck length_bytes hi]

theorem atCounter_initial (hck : (constant ++ key).length = 48) :
    atCounter (initial constant key start iv) n = initial constant key n iv := by
  apply Vector.ext
  intro i hi
  rw [getElem_initial hck hi]
  simp only [atCounter, Vector.getElem_set, getElem_initial hck]
  by_cases h13 : 13 = i
  · subst h13
    simp [wordAt_bytes n]
  · by_cases h12 : 12 = i
    · subst h12
      simp [wordAt_bytes n]
    · simp only [h13, h12, if_false]
      by_cases hlow : i < 12
      · rw [if_pos hlow, if_pos hlow]
      · rw [if_neg hlow, if_neg hlow, if_neg (by omega), if_neg (by omega)]

theorem counterOf_initial (hck : (constant ++ key).length = 48) :
    counterOf (initial constant key start iv) = start := by
  have hat : initial constant key start iv = atCounter (initial constant key start iv) start :=
    (atCounter_initial hck).symm
  rw [hat, counterOf_atCounter]

theorem stream_initial {c : Context} (hck : (constant ++ key).length = 48)
    (hstate : c.state = initial constant key start iv) (j : Nat) :
    c.stream j = keyStream c.rounds constant key start iv j := by
  rw [Context.stream, keyStream, Context.after, hstate, counterOf_initial hck, atCounter_initial hck]

end Initial

/-! ## The init functions -/

theorem constants_eq : ∀ i : Fin 4, chachaConstantsK256.get i = wordAt (constantOf 32) i ∧
    chachaConstantsK128.get i = wordAt (constantOf 16) i := by
  decide

theorem keySet_low (x : State) (key : Memory) (keySize : Nat) {i : Nat} (hi : i < 12) :
    (chachaKeySet x key keySize)[i] = wordAt (constantOf keySize ++ keyBytes key keySize) i := by
  unfold chachaKeySet constantOf keyBytes
  simp only [u8To32Little_eq]
  split
  · interval_cases i
    case «0» => exact (constants_eq 0).1
    case «1» => exact (constants_eq 1).1
    case «2» => exact (constants_eq 2).1
    case «3» => exact (constants_eq 3).1
    all_goals rfl
  · interval_cases i
    case «0» => exact (constants_eq 0).2
    case «1» => exact (constants_eq 1).2
    case «2» => exact (constants_eq 2).2
    case «3» => exact (constants_eq 3).2
    all_goals rfl

theorem counterSet_eq (x : State) (counter : Option Memory) :
    chachaCounterSet x counter =
      (x.set 12 (wordAt (optional 0 8 counter) 0)).set 13 (wordAt (optional 0 8 counter) 1) := by
  cases counter with
  | none => rw [wordAt_optional_none (by decide), wordAt_optional_none (by decide)]; rfl
  | some m => rw [wordAt_optional_some (by decide), wordAt_optional_some (by decide)]; rfl

theorem ivSet_eq (x : State) (iv : Option Memory) :
    chachaIvSet x iv = (x.set 14 (wordAt (optional 0 8 iv) 0)).set 15 (wordAt (optional 0 8 iv) 1) := by
  cases iv with
  | none => rw [wordAt_optional_none (by decide), wordAt_optional_none (by decide)]; rfl
  | some m => rw [wordAt_optional_some (by decide), wordAt_optional_some (by decide)]; rfl

theorem chachaInit_state (ctx : Context) (key : Memory) (keySize : Nat) (counter iv : Option Memory)
    (rounds : Nat) :
    (chachaInit ctx key keySize counter iv rounds).state =
      initial (constantOf keySize) (keyBytes key keySize) (startOf counter) (optional 0 8 iv) := by
  apply Vector.ext
  intro i hi
  rw [getElem_initial (by simp) hi, bytes_startOf]
  simp only [chachaInit, ivSet_eq, counterSet_eq, Vector.getElem_set]
  by_cases hlow : i < 12
  · simp only [show ¬ 15 = i by omega, show ¬ 14 = i by omega, show ¬ 13 = i by omega,
      show ¬ 12 = i by omega, hlow, if_true, if_false]
    exact keySet_low _ key keySize hlow
  · -- The four entries that the other two set.
    interval_cases i <;> rfl

theorem hchacha_start (key : Memory) (keySize : Nat) (iv : Option Memory) {x : State}
    (hx : x = match iv with
      | some iv => ((((chachaKeySet (Vector.replicate 16 0) key keySize).set 12
          (u8To32Little iv 0)).set 13 (u8To32Little iv 4)).set 14 (u8To32Little iv 8)).set 15
          (u8To32Little iv 12)
      | none => ((((chachaKeySet (Vector.replicate 16 0) key keySize).set 12 0).set 13 0).set 14
          0).set 15 0) :
    x = ofBytes (constantOf keySize ++ keyBytes key keySize ++ optional 0 16 iv) := by
  have hset : x = ((((chachaKeySet (Vector.replicate 16 0) key keySize).set 12
      (wordAt (optional 0 16 iv) 0)).set 13 (wordAt (optional 0 16 iv) 1)).set 14
      (wordAt (optional 0 16 iv) 2)).set 15 (wordAt (optional 0 16 iv) 3) := by
    rw [hx]
    cases iv with
    | none =>
      rw [wordAt_optional_none (by decide), wordAt_optional_none (by decide),
        wordAt_optional_none (by decide), wordAt_optional_none (by decide)]
    | some m =>
      rw [wordAt_optional_some (by decide), wordAt_optional_some (by decide),
        wordAt_optional_some (by decide), wordAt_optional_some (by decide)]
  apply Vector.ext
  intro i hi
  rw [hset, getElem_ofBytes]
  simp only [Vector.getElem_set]
  by_cases hlow : i < 12
  · rw [wordAt_append_left (by simp; omega)]
    simp only [show ¬ 15 = i by omega, show ¬ 14 = i by omega, show ¬ 13 = i by omega,
      show ¬ 12 = i by omega, if_false]
    exact keySet_low _ key keySize hlow
  · obtain ⟨k, rfl⟩ : ∃ k, i = 12 + k := ⟨i - 12, by omega⟩
    rw [wordAt_append_right (by simp)]
    have hk : k < 4 := by omega
    interval_cases k <;> rfl

theorem wordAt_flatMap {ι : Type} (f : ι → W) (l : List ι) {k : Nat} (hk : k < l.length) :
    wordAt (l.flatMap fun i => bytes 4 (f i)) k = f l[k] := by
  induction l generalizing k with
  | nil => contradiction
  | cons i l ih =>
    rw [List.flatMap_cons]
    cases k with
    | zero =>
      rw [wordAt_append_left (by rw [length_bytes]), wordAt, Nat.mul_zero, List.drop_zero,
        List.take_of_length_le (by rw [length_bytes]), word_bytes (f i) (by decide)]
      rfl
    | succ k =>
      have hstep : ∀ b, wordAt (bytes 4 (f i) ++ b) (k + 1) = wordAt b k := by
        intro b
        rw [Nat.add_comm k 1,
          wordAt_append_right (length_bytes : (bytes 4 (f i)).length = 4 * 1)]
      rw [hstep, ih (by simpa using hk)]
      rfl

theorem length_subKey (rounds : Nat) (key : Memory) (keySize : Nat) (iv : Option Memory) :
    (subKey rounds key keySize iv).length = 32 := by
  simp [subKey]

theorem hchacha_eq {rounds : Nat} (heven : rounds % 2 = 0) (key : Memory) (keySize : Nat)
    (iv : Option Memory) {k : Nat} (hk : k < 8) :
    (hchacha key keySize iv rounds)[k] = wordAt (subKey rounds key keySize iv) k := by
  rw [subKey, wordAt_flatMap (fun i : Fin 16 => (cipherRounds rounds (ofBytes (constantOf keySize ++
    keyBytes key keySize ++ optional 0 16 iv)))[i]) _ hk, ← hchacha_start key keySize iv rfl,
    ← roundsLoop_eq heven]
  unfold hchacha
  interval_cases k <;> rfl

theorem xchachaInit_state {rounds : Nat} (heven : rounds % 2 = 0) (ctx : Context) (key : Memory)
    (keySize : Nat) (counter iv : Option Memory) :
    (xchachaInit ctx key keySize counter iv rounds).state =
      initial (constantOf 32) (subKey rounds key keySize iv) (startOf counter)
        (optional 16 8 iv) := by
  have hiv : optional 0 8 (iv.map fun iv a => iv (16 + a)) = optional 16 8 iv := by
    cases iv with
    | none => rfl
    | some m => simp [optional, ByteMem.read]
  have hck : (constantOf 32 ++ subKey rounds key keySize iv).length = 48 := by
    rw [List.length_append, length_subKey, length_constantOf]
  apply Vector.ext
  intro i hi
  rw [getElem_initial hck hi, bytes_startOf]
  simp only [xchachaInit, xchachaSetKeyIvRounds, ivSet_eq, counterSet_eq, Vector.getElem_set, hiv]
  by_cases hlow : i < 12
  · simp only [show ¬ 15 = i by omega, show ¬ 14 = i by omega, show ¬ 13 = i by omega,
      show ¬ 12 = i by omega, hlow, if_true, if_false]
    by_cases hrow : i < 4
    · rw [wordAt_append_left (by rw [length_constantOf]; omega)]
      interval_cases i
      · exact (constants_eq 0).1
      · exact (constants_eq 1).1
      · exact (constants_eq 2).1
      · exact (constants_eq 3).1
    · obtain ⟨k, rfl⟩ : ∃ k, i = 4 + k := ⟨i - 4, by omega⟩
      have hk : k < 8 := by omega
      rw [wordAt_append_right (length_constantOf 32), ← hchacha_eq heven key keySize iv hk]
      interval_cases k <;> rfl
  · interval_cases i <;> rfl

end Chacha
