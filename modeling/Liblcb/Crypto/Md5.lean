import Liblcb.Crypto.BlockHash
import Liblcb.Crypto.Words

/-!
# MD5

`crypto/hash/md5.h`: the context, `md5_transform` with its copy of a block that is not aligned,
`md5_update` and `md5_final`.
-/

namespace Md5

open ByteMem BlockHash Words

def msgBlkSize : Nat := 64

/-! ## The block -/

def md5F (x y z : W) : W := (x &&& y) ||| (~~~x &&& z)
def md5G (x y z : W) : W := (x &&& z) ||| (y &&& ~~~z)
def md5H (x y z : W) : W := x ^^^ y ^^^ z
def md5I (x y z : W) : W := y ^^^ (x ||| ~~~z)

/-- The body of `MD5_FF`, `MD5_GG`, `MD5_HH` and `MD5_II`: the new value of `a`. -/
def md5Step (f : W → W → W → W) (a b c d x : W) (s : Nat) (ac : W) : W :=
  rotl32 (a + (f b c d + x + ac)) s + b

def md5FF := md5Step md5F
def md5GG := md5Step md5G
def md5HH := md5Step md5H
def md5II := md5Step md5I

/-- The rounds of `md5_transform` on a state and the words of a block. -/
def md5Rounds (hash : Vector W 4) (x : Fin 16 → W) : Vector W 4 :=
  let a := hash.get 0
  let b := hash.get 1
  let c := hash.get 2
  let d := hash.get 3
  -- Round 1
  let a := md5FF a b c d (x 0) 7 0xd76aa478
  let d := md5FF d a b c (x 1) 12 0xe8c7b756
  let c := md5FF c d a b (x 2) 17 0x242070db
  let b := md5FF b c d a (x 3) 22 0xc1bdceee
  let a := md5FF a b c d (x 4) 7 0xf57c0faf
  let d := md5FF d a b c (x 5) 12 0x4787c62a
  let c := md5FF c d a b (x 6) 17 0xa8304613
  let b := md5FF b c d a (x 7) 22 0xfd469501
  let a := md5FF a b c d (x 8) 7 0x698098d8
  let d := md5FF d a b c (x 9) 12 0x8b44f7af
  let c := md5FF c d a b (x 10) 17 0xffff5bb1
  let b := md5FF b c d a (x 11) 22 0x895cd7be
  let a := md5FF a b c d (x 12) 7 0x6b901122
  let d := md5FF d a b c (x 13) 12 0xfd987193
  let c := md5FF c d a b (x 14) 17 0xa679438e
  let b := md5FF b c d a (x 15) 22 0x49b40821
  -- Round 2
  let a := md5GG a b c d (x 1) 5 0xf61e2562
  let d := md5GG d a b c (x 6) 9 0xc040b340
  let c := md5GG c d a b (x 11) 14 0x265e5a51
  let b := md5GG b c d a (x 0) 20 0xe9b6c7aa
  let a := md5GG a b c d (x 5) 5 0xd62f105d
  let d := md5GG d a b c (x 10) 9 0x02441453
  let c := md5GG c d a b (x 15) 14 0xd8a1e681
  let b := md5GG b c d a (x 4) 20 0xe7d3fbc8
  let a := md5GG a b c d (x 9) 5 0x21e1cde6
  let d := md5GG d a b c (x 14) 9 0xc33707d6
  let c := md5GG c d a b (x 3) 14 0xf4d50d87
  let b := md5GG b c d a (x 8) 20 0x455a14ed
  let a := md5GG a b c d (x 13) 5 0xa9e3e905
  let d := md5GG d a b c (x 2) 9 0xfcefa3f8
  let c := md5GG c d a b (x 7) 14 0x676f02d9
  let b := md5GG b c d a (x 12) 20 0x8d2a4c8a
  -- Round 3
  let a := md5HH a b c d (x 5) 4 0xfffa3942
  let d := md5HH d a b c (x 8) 11 0x8771f681
  let c := md5HH c d a b (x 11) 16 0x6d9d6122
  let b := md5HH b c d a (x 14) 23 0xfde5380c
  let a := md5HH a b c d (x 1) 4 0xa4beea44
  let d := md5HH d a b c (x 4) 11 0x4bdecfa9
  let c := md5HH c d a b (x 7) 16 0xf6bb4b60
  let b := md5HH b c d a (x 10) 23 0xbebfbc70
  let a := md5HH a b c d (x 13) 4 0x289b7ec6
  let d := md5HH d a b c (x 0) 11 0xeaa127fa
  let c := md5HH c d a b (x 3) 16 0xd4ef3085
  let b := md5HH b c d a (x 6) 23 0x04881d05
  let a := md5HH a b c d (x 9) 4 0xd9d4d039
  let d := md5HH d a b c (x 12) 11 0xe6db99e5
  let c := md5HH c d a b (x 15) 16 0x1fa27cf8
  let b := md5HH b c d a (x 2) 23 0xc4ac5665
  -- Round 4
  let a := md5II a b c d (x 0) 6 0xf4292244
  let d := md5II d a b c (x 7) 10 0x432aff97
  let c := md5II c d a b (x 14) 15 0xab9423a7
  let b := md5II b c d a (x 5) 21 0xfc93a039
  let a := md5II a b c d (x 12) 6 0x655b59c3
  let d := md5II d a b c (x 3) 10 0x8f0ccc92
  let c := md5II c d a b (x 10) 15 0xffeff47d
  let b := md5II b c d a (x 1) 21 0x85845dd1
  let a := md5II a b c d (x 8) 6 0x6fa87e4f
  let d := md5II d a b c (x 15) 10 0xfe2ce6e0
  let c := md5II c d a b (x 6) 15 0xa3014314
  let b := md5II b c d a (x 13) 21 0x4e0811a1
  let a := md5II a b c d (x 4) 6 0xf7537e82
  let d := md5II d a b c (x 11) 10 0xbd3af235
  let c := md5II c d a b (x 2) 15 0x2ad7d2bb
  let b := md5II b c d a (x 9) 21 0xeb86d391
  #v[hash.get 0 + a, hash.get 1 + b, hash.get 2 + c, hash.get 3 + d]

/-- A block through a `const uint32_t *`. -/
def blockWords (block : List Byte) : Fin 16 → W := fun i => wordAt block i

/-- `md5_transform`: a block that is not 4 byte aligned is copied into the input buffer. -/
def md5Transform : Transform (Vector W 4) := fun s addr block =>
  if addr % 4 = 0 then (md5Rounds s.1 (blockWords block), s.2)
  else
    let buffer := Buffer.splice s.2 0 block
    (md5Rounds s.1 (blockWords buffer), buffer)

/-! ## The context -/

/-- `md5_ctx_t` -/
structure Md5Ctx where
  hash : Vector W 4
  count : BitVec 64
  buffer : List Byte

def md5Init (ctx : Md5Ctx) : Md5Ctx :=
  { ctx with
    hash := #v[0x67452301, 0xefcdab89, 0x98badcfe, 0x10325476]
    count := 0 }

/-- The loop of `md5_update` over the data from `i` on. -/
def md5UpdateLoop (s : Vector W 4 × List Byte) (addr : Nat) (data : List Byte) (i : Nat) :
    (Vector W 4 × List Byte) × Nat :=
  if i + (msgBlkSize - 1) < data.length then
    md5UpdateLoop (md5Transform s (addr + i) ((data.drop i).take msgBlkSize)) addr data (i + msgBlkSize)
  else (s, i)
termination_by data.length - i
decreasing_by
  simp only [msgBlkSize]
  omega

def md5Update (ctx : Md5Ctx) (addr : Nat) (data : List Byte) : Md5Ctx :=
  if data.length = 0 then ctx
  else
    let index := inBlock msgBlkSize ctx.count.toNat
    let partSize := msgBlkSize - index
    let count := ctx.count + BitVec.ofNat 64 data.length
    let s := (ctx.hash, ctx.buffer)
    let (s, index, i) :=
      if data.length ≥ partSize then
        let (s, index, partSize) :=
          if index ≠ 0 then
            -- Add data to buffer and process it.
            let s := (s.1, Buffer.splice s.2 index (data.take partSize))
            (md5Transform s 0 (s.2.take msgBlkSize), 0, partSize)
          else (s, index, 0)
        let (s, i) := md5UpdateLoop s addr data partSize
        (s, index, i)
      else (s, index, 0)
    -- Buffer remaining data.
    { hash := s.1, count, buffer := Buffer.splice s.2 index (data.drop i) }

/-- `md5_final`: the digest. -/
def md5Final (ctx : Md5Ctx) : List Byte :=
  let s := finalBuffer msgBlkSize (msgBlkSize - 8) md5Transform (ctx.hash, ctx.buffer)
    (inBlock msgBlkSize ctx.count.toNat) (bytes 8 (ctx.count <<< 3))
  s.1.toList.flatMap (bytes 4)

/-! ## The digest -/

/-- The transform of one block. -/
def md5Block (hash : Vector W 4) (block : List Byte) : Vector W 4 := md5Rounds hash (blockWords block)

/-- The digest of a message: the block transform over the padded message. -/
def md5 (msg : List Byte) : List Byte :=
  let padded := pad msgBlkSize (msgBlkSize - 8) (bytes 8 (BitVec.ofNat 64 (8 * msg.length))) msg
  (BlockStream.whole md5Block msgBlkSize #v[0x67452301, 0xefcdab89, 0x98badcfe, 0x10325476]
    padded).toList.flatMap (bytes 4)

end Md5

/-!
# MD5 of a message in chunks

What a context holds is a function of the message so far, so the digest is the one of the whole
message for any chunks of it.
-/

namespace Md5

open ByteMem BlockHash BlockStream Words

/-- The initial state. -/
def iv : Vector W 4 := #v[0x67452301, 0xefcdab89, 0x98badcfe, 0x10325476]

/-- The context of a message so far. -/
structure Taken (msg : List Byte) (ctx : Md5Ctx) : Prop where
  holds : Holds md5Block msgBlkSize iv msg (ctx.hash, ctx.buffer)
  count : ctx.count = BitVec.ofNat 64 msg.length

/-! ## The transform -/

theorem blockWords_splice {buffer block : List Byte} (hlen : block.length = msgBlkSize) :
    blockWords (Buffer.splice buffer 0 block) = blockWords block := by
  have hsize : block.length = 64 := hlen
  funext i
  simp only [blockWords, wordAt, Buffer.splice, List.take_zero, List.nil_append]
  rw [List.drop_append_of_le_length (by omega), List.take_append_of_le_length (by
    rw [List.length_drop]
    omega)]

theorem md5Transform_fst {s : Vector W 4 × List Byte} {block : List Byte} (addr : Nat)
    (hlen : block.length = msgBlkSize) : (md5Transform s addr block).1 = md5Block s.1 block := by
  unfold md5Transform md5Block
  split
  · rfl
  · dsimp only
    rw [blockWords_splice hlen]

theorem md5Transform_takes : Takes md5Block msgBlkSize md5Transform := by
  apply Takes.mk
  case state =>
    intro s addr block _ hlen
    have hone := @whole_block _ _ md5Block msgBlkSize s.1 block [] (by decide) hlen
    rw [md5Transform_fst addr hlen]
    have hnil : ([] : List Byte).length < msgBlkSize := by decide
    rw [List.append_nil, whole_of_lt (l := []) hnil] at hone
    exact hone.symm
  case buffer =>
    intro s addr block hsize hlen
    unfold md5Transform
    split
    · rfl
    · exact Buffer.length_splice (by omega)

/-! ## The update -/

theorem md5UpdateLoop_spec {s : Vector W 4 × List Byte} {addr : Nat} {data : List Byte} {i : Nat}
    (hsize : msgBlkSize ≤ s.2.length) (hi : i ≤ data.length) :
    (md5UpdateLoop s addr data i).1.1 = whole md5Block msgBlkSize s.1 (data.drop i) ∧
      data.drop (md5UpdateLoop s addr data i).2 = rest msgBlkSize (data.drop i) ∧
      msgBlkSize ≤ (md5UpdateLoop s addr data i).1.2.length := by
  induction s, i using md5UpdateLoop.induct addr data with
  | case1 s i hmore ih =>
    rw [md5UpdateLoop, if_pos hmore]
    have hblk : msgBlkSize = 64 := rfl
    have hlen : ((data.drop i).take msgBlkSize).length = msgBlkSize := by
      rw [List.length_take, List.length_drop]
      omega
    have hsplit : data.drop i = (data.drop i).take msgBlkSize ++ data.drop (i + msgBlkSize) := by
      rw [← List.drop_drop, List.take_append_drop]
    have hstep := ih (by
      rw [md5Transform_takes.buffer _ _ _ hsize hlen]
      exact hsize) (by omega)
    have hwhole : whole md5Block msgBlkSize s.1 (data.drop i) = whole md5Block msgBlkSize
        (md5Block s.1 ((data.drop i).take msgBlkSize)) (data.drop (i + msgBlkSize)) := by
      rw [← whole_block (by decide) hlen, ← hsplit]
    have hrest : rest msgBlkSize (data.drop i) = rest msgBlkSize (data.drop (i + msgBlkSize)) := by
      conv_lhs => rw [hsplit]
      exact rest_block (by decide) hlen
    rw [md5Transform_fst _ hlen] at hstep
    rw [hwhole, hrest]
    exact hstep
  | case2 s i hdone =>
    rw [md5UpdateLoop, if_neg hdone]
    have hblk : msgBlkSize = 64 := rfl
    have hlt : (data.drop i).length < msgBlkSize := by
      rw [List.length_drop]
      omega
    exact ⟨(whole_of_lt hlt).symm, (rest_of_lt hlt).symm, hsize⟩

theorem Taken.init (ctx : Md5Ctx) (hsize : ctx.buffer.length = msgBlkSize) :
    Taken [] (md5Init ctx) where
  holds := { state := rfl, buffer := rfl, size := hsize.ge }
  count := rfl

theorem Taken.index {msg : List Byte} {ctx : Md5Ctx} (h : Taken msg ctx) :
    inBlock msgBlkSize ctx.count.toNat = msg.length % msgBlkSize := by
  rw [h.count]
  exact inBlock_count (k := 6) (by decide)

theorem Taken.update {msg : List Byte} {ctx : Md5Ctx} (h : Taken msg ctx) (addr : Nat)
    (data : List Byte) : Taken (msg ++ data) (md5Update ctx addr data) := by
  have hholds := h.holds
  have hsize := hholds.size
  have hblk : msgBlkSize = 64 := rfl
  have hlt := Nat.mod_lt msg.length (by decide : 0 < msgBlkSize)
  unfold md5Update
  by_cases hempty : data.length = 0
  · rw [if_pos hempty, List.eq_nil_of_length_eq_zero hempty, List.append_nil]
    exact h
  rw [if_neg hempty]
  dsimp only
  have hcount : ctx.count + BitVec.ofNat 64 data.length = BitVec.ofNat 64 (msg ++ data).length := by
    rw [h.count, List.length_append, BitVec.ofNat_add]
  rw [h.index]
  by_cases hpart : data.length ≥ msgBlkSize - msg.length % msgBlkSize
  · rw [if_pos hpart]
    by_cases hindex : msg.length % msgBlkSize = 0
    · -- Process all data in the loop.
      have hnil : rest msgBlkSize msg = [] := by
        apply List.eq_nil_of_length_eq_zero
        rw [length_rest, hindex]
      have hloop := @md5UpdateLoop_spec (ctx.hash, ctx.buffer) addr data 0 hsize (Nat.zero_le _)
      rw [List.drop_zero] at hloop
      obtain ⟨hstate, hrest, hsize'⟩ := hloop
      rw [if_neg (not_not_intro hindex)]
      dsimp only
      rw [hrest, hindex]
      have hall : rest msgBlkSize data = rest msgBlkSize (msg ++ data) := by
        rw [rest_append (by decide), hnil, List.nil_append]
      have hwhole : (md5UpdateLoop (ctx.hash, ctx.buffer) addr data 0).1.1 =
          whole md5Block msgBlkSize iv (msg ++ data) := by
        rw [hstate, whole_append (by decide), hnil, List.nil_append, hholds.state]
      rw [hall]
      exact ⟨Holds.keep (by decide) hwhole hsize', hcount⟩
    · rw [if_pos hindex]
      dsimp only
      obtain ⟨hsize₁, hwhole, hrest⟩ := hholds.complete md5Transform_takes hpart (by decide) rfl
      have hloop := @md5UpdateLoop_spec _ addr data _ hsize₁ hpart
      obtain ⟨hstate, hleft, hsize'⟩ := hloop
      rw [hleft, hrest]
      exact ⟨Holds.keep (by decide) (hstate.trans hwhole) hsize', hcount⟩
  · rw [if_neg hpart]
    dsimp only
    rw [List.drop_zero]
    exact ⟨hholds.fill (by omega), hcount⟩

theorem Taken.final {msg : List Byte} {ctx : Md5Ctx} (h : Taken msg ctx) :
    md5Final ctx = md5 msg := by
  unfold md5Final md5
  dsimp only
  rw [h.index, h.count, shiftLeft_count, h.holds.final md5Transform_takes rfl (by decide)]
  rfl

theorem md5_stream (ctx : Md5Ctx) (hsize : ctx.buffer.length = msgBlkSize) (chunks : List Chunk) :
    md5Final (chunks.foldl (fun ctx c => md5Update ctx c.addr c.bytes) (md5Init ctx)) =
      md5 (message chunks) := by
  have htaken := @foldl_message _ Taken (fun ctx c => md5Update ctx c.addr c.bytes)
    (fun _ _ h c => h.update c.addr c.bytes) _ (Taken.init ctx hsize) chunks
  exact htaken.final

end Md5
