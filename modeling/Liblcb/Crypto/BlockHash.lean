import Liblcb.Lib.BlockStream
import Liblcb.Lib.Buffer
import Liblcb.Lib.ByteMem

/-!
# Hashes of a message in chunks

The headers of `crypto/hash/` keep the bytes of a message that do not fill a block yet in an input
buffer.  `updateBuffer` and `finalBuffer` are the bodies that their update and final functions share,
for any transform of a block.  The digest they lead to is the one of the whole message, padded.
-/

namespace BlockHash

open ByteMem BlockStream

variable {σ : Type}

/-- A part of a message, with its address; its size is a `size_t`. -/
structure Chunk where
  addr : Nat
  bytes : List Byte
  fits : bytes.length < 2 ^ 64

/-- The message that comes in chunks. -/
def message (chunks : List Chunk) : List Byte := chunks.flatMap Chunk.bytes

/-- A transform takes the state, with the input buffer, over the blocks at an address. -/
abbrev Transform (σ : Type) := σ × List Byte → Nat → List Byte → σ × List Byte

/-- `size & mask` -/
def inBlock (n size : Nat) : Nat := (BitVec.ofNat 64 size &&& BitVec.ofNat 64 (n - 1)).toNat

/-- `size & ~mask` -/
def wholeBlocks (n size : Nat) : Nat := (BitVec.ofNat 64 size &&& ~~~ BitVec.ofNat 64 (n - 1)).toNat

/-- The body of `sha1_update`, `sha2_update` and `gost3411_2012_update`, for `usage` bytes in the buffer
and blocks of `n`; also how many bytes are in the buffer now. -/
def updateBuffer (n : Nat) (transform : Transform σ) (s : σ × List Byte) (usage addr : Nat)
    (data : List Byte) : (σ × List Byte) × Nat :=
  let part := n - usage
  -- Transform as many times as possible.
  if part ≤ data.length then
    let (s, usage, addr, data) :=
      if usage ≠ 0 then
        -- Add data to buffer and process it.
        let s := (s.1, Buffer.splice s.2 usage (data.take part))
        (transform s 0 (s.2.take n), 0, addr + part, data.drop part)
      else (s, usage, addr, data)
    let (s, data) :=
      if n ≤ data.length then
        let size := wholeBlocks n data.length
        (transform s addr (data.take size), data.drop size)
      else (s, data)
    ((s.1, Buffer.splice s.2 usage data), usage + data.length)
  else ((s.1, Buffer.splice s.2 usage data), usage + data.length)

/-- The body of `md5_final`, `sha1_final` and `sha2_final`, for a length of the message that is stored
as `lenBytes` at `lenOff`. -/
def finalBuffer (n lenOff : Nat) (transform : Transform σ) (s : σ × List Byte) (usage : Nat)
    (lenBytes : List Byte) : σ × List Byte :=
  let s := (s.1, Buffer.splice s.2 usage [0x80])
  let usage := usage + 1
  let (s, usage) :=
    if lenOff < usage then
      -- Not enough space for message length.
      let s := (s.1, Buffer.splice s.2 usage (List.replicate (n - usage) 0))
      (transform s 0 (s.2.take n), 0)
    else (s, usage)
  let s := (s.1, Buffer.splice s.2 usage (List.replicate (lenOff - usage) 0))
  let s := (s.1, Buffer.splice s.2 lenOff lenBytes)
  transform s 0 (s.2.take n)

/-- The padded message: 0x80, zeros up to `lenOff` of a block, and the length. -/
def pad (n lenOff : Nat) (lenBytes msg : List Byte) : List Byte :=
  msg ++ 0x80 :: List.replicate ((lenOff + n - (msg.length + 1) % n) % n) 0 ++ lenBytes

/-! ## Sizes -/

theorem inBlock_eq {k size : Nat} (hk : k ≤ 64) : inBlock (2 ^ k) size = size % 2 ^ k := by
  rw [inBlock, BitVec.toNat_and, BitVec.toNat_ofNat, BitVec.toNat_ofNat]
  have hpow : 2 ^ k ≤ 2 ^ 64 := Nat.pow_le_pow_right (by decide) hk
  have hmask : 2 ^ k - 1 < 2 ^ 64 := by omega
  rw [Nat.mod_eq_of_lt hmask, Nat.and_two_pow_sub_one_eq_mod]
  exact Nat.mod_mod_of_dvd _ (Nat.pow_dvd_pow 2 hk)

theorem wholeBlocks_eq {k size : Nat} (hk : k ≤ 64) (hsize : size < 2 ^ 64) :
    wholeBlocks (2 ^ k) size = size / 2 ^ k * 2 ^ k := by
  have hsplit : BitVec.ofNat 64 size = (BitVec.ofNat 64 size &&& ~~~ BitVec.ofNat 64 (2 ^ k - 1)) +
      (BitVec.ofNat 64 size &&& BitVec.ofNat 64 (2 ^ k - 1)) := by
    rw [BitVec.add_eq_or_of_and_eq_zero]
    · apply BitVec.eq_of_getLsbD_eq
      intro i hi
      simp only [BitVec.getLsbD_or, BitVec.getLsbD_and, BitVec.getLsbD_not, hi, decide_true,
        Bool.true_and]
      cases (BitVec.ofNat 64 size).getLsbD i
      · rfl
      · cases (BitVec.ofNat 64 (2 ^ k - 1)).getLsbD i
        · rfl
        · rfl
    · apply BitVec.eq_of_getLsbD_eq
      intro i hi
      simp only [BitVec.getLsbD_and, BitVec.getLsbD_not, hi, decide_true, Bool.true_and,
        BitVec.getLsbD_zero]
      cases (BitVec.ofNat 64 (2 ^ k - 1)).getLsbD i
      · simp
      · simp
  have hle : (BitVec.ofNat 64 size &&& ~~~ BitVec.ofNat 64 (2 ^ k - 1)).toNat ≤ size := by
    rw [BitVec.toNat_and, BitVec.toNat_ofNat, Nat.mod_eq_of_lt hsize]
    exact Nat.and_le_left
  have hlow := @inBlock_eq k size hk
  have hsum := congrArg BitVec.toNat hsplit
  have hdiv := Nat.div_add_mod size (2 ^ k)
  rw [Nat.mul_comm] at hdiv
  unfold inBlock at hlow
  rw [BitVec.toNat_add, hlow, BitVec.toNat_ofNat, Nat.mod_eq_of_lt hsize] at hsum
  unfold wholeBlocks
  have hmod : size % 2 ^ k ≤ size := Nat.mod_le _ _
  omega

/-! ## The invariant -/

/-- The transform takes `f` over the blocks and keeps the buffer an array of its size. -/
structure Runs (f : σ → List Byte → σ) (n : Nat) (transform : Transform σ) : Prop where
  state : ∀ s addr blocks, n ≤ s.2.length → n ∣ blocks.length →
    (transform s addr blocks).1 = whole f n s.1 blocks
  buffer : ∀ s addr blocks, n ≤ s.2.length → n ∣ blocks.length →
    (transform s addr blocks).2.length = s.2.length

/-- The same for a transform of one block at a time. -/
structure Takes (f : σ → List Byte → σ) (n : Nat) (transform : Transform σ) : Prop where
  state : ∀ s addr block, n ≤ s.2.length → block.length = n →
    (transform s addr block).1 = whole f n s.1 block
  buffer : ∀ s addr block, n ≤ s.2.length → block.length = n →
    (transform s addr block).2.length = s.2.length

theorem Runs.takes {f : σ → List Byte → σ} {n : Nat} {transform : Transform σ}
    (ht : Runs f n transform) : Takes f n transform where
  state s addr block hsize hlen := ht.state s addr block hsize (hlen ▸ Nat.dvd_refl _)
  buffer s addr block hsize hlen := ht.buffer s addr block hsize (hlen ▸ Nat.dvd_refl _)

/-- `msg` has been taken in: its whole blocks are in the state, its rest is in the buffer. -/
structure Holds (f : σ → List Byte → σ) (n : Nat) (s₀ : σ) (msg : List Byte) (s : σ × List Byte) :
    Prop where
  state : s.1 = whole f n s₀ msg
  buffer : s.2.take (msg.length % n) = rest n msg
  size : n ≤ s.2.length

section Update

variable {f : σ → List Byte → σ} {n : Nat} {transform : Transform σ} {s₀ : σ} {msg data : List Byte}
  {s : σ × List Byte}

theorem Holds.fill (h : Holds f n s₀ msg s) (hfits : msg.length % n + data.length < n) :
    Holds f n s₀ (msg ++ data) (s.1, Buffer.splice s.2 (msg.length % n) data) := by
  have hn : 0 < n := by omega
  have hsize := h.size
  have hlt : (rest n msg ++ data).length < n := by
    rw [List.length_append, length_rest]
    exact hfits
  have hrest : rest n (msg ++ data) = rest n msg ++ data := by
    rw [rest_append hn, rest_of_lt hlt]
  have hmod : (msg ++ data).length % n = msg.length % n + data.length := by
    rw [← length_rest, hrest, List.length_append, length_rest]
  apply Holds.mk
  case state => rw [whole_append hn, whole_of_lt hlt, h.state]
  case buffer => rw [hmod, Buffer.take_splice (by omega), h.buffer, hrest]
  case size =>
    rw [Buffer.length_splice (by omega)]
    exact hsize

theorem Holds.whole_data (ht : Runs f n transform) (hsize : n ≤ s.2.length) (addr : Nat)
    {s' : σ × List Byte} {left : List Byte}
    (hs : (s', left) = if n ≤ data.length then
        (transform s addr (data.take (data.length / n * n)), data.drop (data.length / n * n))
      else (s, data)) :
    s'.1 = whole f n s.1 data ∧ left = rest n data ∧ n ≤ s'.2.length := by
  by_cases hdata : n ≤ data.length
  · rw [if_pos hdata] at hs
    cases hs
    have hdvd : n ∣ (data.take (data.length / n * n)).length := dvd_length_take
    refine ⟨?_, rfl, ?_⟩
    · rw [ht.state _ _ _ hsize hdvd, whole_take]
    · rw [ht.buffer _ _ _ hsize hdvd]
      exact hsize
  · rw [if_neg hdata] at hs
    cases hs
    exact ⟨(whole_of_lt (by omega)).symm, (rest_of_lt (by omega)).symm, hsize⟩

theorem Holds.keep (hn : 0 < n) {s' : σ × List Byte} (hstate : s'.1 = whole f n s₀ msg)
    (hsize : n ≤ s'.2.length) : Holds f n s₀ msg (s'.1, Buffer.splice s'.2 0 (rest n msg)) := by
  have hlt := Nat.mod_lt msg.length hn
  apply Holds.mk
  case state => exact hstate
  case buffer =>
    have htake := @Buffer.take_splice _ s'.2 (rest n msg) 0 (Nat.zero_le _)
    rwa [Nat.zero_add, length_rest, List.take_zero, List.nil_append] at htake
  case size =>
    rw [Buffer.length_splice (by rw [length_rest]; omega)]
    exact hsize

theorem Holds.complete (ht : Takes f n transform) (h : Holds f n s₀ msg s)
    (hpart : n - msg.length % n ≤ data.length) (hn : 0 < n) {s' : σ × List Byte}
    (hs : s' = transform (s.1, Buffer.splice s.2 (msg.length % n) (data.take (n - msg.length % n))) 0
      ((Buffer.splice s.2 (msg.length % n) (data.take (n - msg.length % n))).take n)) :
    n ≤ s'.2.length ∧ whole f n s'.1 (data.drop (n - msg.length % n)) = whole f n s₀ (msg ++ data) ∧
      rest n (data.drop (n - msg.length % n)) = rest n (msg ++ data) := by
  have hsize := h.size
  have hlt := Nat.mod_lt msg.length hn
  have hlen : (data.take (n - msg.length % n)).length = n - msg.length % n := by
    rw [List.length_take]
    omega
  have hfilled : n ≤ (Buffer.splice s.2 (msg.length % n) (data.take (n - msg.length % n))).length := by
    rw [Buffer.length_splice (by omega)]
    exact hsize
  have hblock : (Buffer.splice s.2 (msg.length % n) (data.take (n - msg.length % n))).take n =
      rest n msg ++ data.take (n - msg.length % n) := by
    have htake := @Buffer.take_splice _ s.2 (data.take (n - msg.length % n)) (msg.length % n) (by omega)
    rw [hlen, Nat.add_sub_cancel' hlt.le, h.buffer] at htake
    exact htake
  have hblocklen : (rest n msg ++ data.take (n - msg.length % n)).length = n := by
    rw [List.length_append, length_rest, hlen, Nat.add_sub_cancel' hlt.le]
  have hdvd : n ∣ (rest n msg ++ data.take (n - msg.length % n)).length :=
    ⟨1, by rw [hblocklen, Nat.mul_one]⟩
  have hall : rest n msg ++ data =
      (rest n msg ++ data.take (n - msg.length % n)) ++ data.drop (n - msg.length % n) := by
    rw [List.append_assoc, List.take_append_drop]
  rw [hblock] at hs
  subst hs
  refine ⟨?_, ?_, ?_⟩
  · rw [ht.buffer _ _ _ hfilled hblocklen]
    exact hfilled
  · rw [ht.state _ _ _ hfilled hblocklen, whole_append (l := msg) hn, hall, whole_append_of_dvd hn hdvd,
      h.state]
  · rw [rest_append (l := msg) hn, hall, rest_append_of_dvd hn hdvd]

/-- One update takes in its chunk. -/
theorem Holds.update {k : Nat} (hk : k ≤ 64) (ht : Runs f (2 ^ k) transform)
    (h : Holds f (2 ^ k) s₀ msg s) (addr : Nat) (hfits : data.length < 2 ^ 64) :
    Holds f (2 ^ k) s₀ (msg ++ data)
        (updateBuffer (2 ^ k) transform s (msg.length % 2 ^ k) addr data).1 ∧
      (updateBuffer (2 ^ k) transform s (msg.length % 2 ^ k) addr data).2 =
        (msg ++ data).length % 2 ^ k := by
  have hn : 0 < 2 ^ k := Nat.two_pow_pos k
  have hsize := h.size
  have hlt := Nat.mod_lt msg.length hn
  unfold updateBuffer
  by_cases hpart : 2 ^ k - msg.length % 2 ^ k ≤ data.length
  · rw [if_pos hpart]
    by_cases husage : msg.length % 2 ^ k = 0
    · -- The message so far is all whole blocks.
      rw [if_neg (not_not_intro husage)]
      dsimp only
      rw [wholeBlocks_eq hk hfits, husage]
      have hnil : rest (2 ^ k) msg = [] := by
        apply List.eq_nil_of_length_eq_zero
        rw [length_rest, husage]
      generalize hs : (if 2 ^ k ≤ data.length then _ else _ : (σ × List Byte) × List Byte) = t
      obtain ⟨s', left⟩ := t
      obtain ⟨hstate, hleft, hsize'⟩ := Holds.whole_data ht hsize addr hs.symm
      have hrest : rest (2 ^ k) data = rest (2 ^ k) (msg ++ data) := by
        rw [rest_append hn, hnil, List.nil_append]
      rw [hleft, hrest]
      have hwhole : s'.1 = whole f (2 ^ k) s₀ (msg ++ data) := by
        rw [hstate, whole_append hn, hnil, List.nil_append, h.state]
      exact ⟨Holds.keep hn hwhole hsize', by rw [Nat.zero_add, length_rest]⟩
    · rw [if_pos husage]
      dsimp only
      have hcomplete := h.complete ht.takes hpart hn rfl
      have hfits' : (data.drop (2 ^ k - msg.length % 2 ^ k)).length < 2 ^ 64 := by
        rw [List.length_drop]
        omega
      rw [wholeBlocks_eq hk hfits']
      generalize transform _ 0 _ = s₁ at hcomplete
      obtain ⟨hsize₁, hwhole, hrest⟩ := hcomplete
      generalize hs : (if 2 ^ k ≤ (data.drop (2 ^ k - msg.length % 2 ^ k)).length then _ else _ :
        (σ × List Byte) × List Byte) = t
      obtain ⟨s', left⟩ := t
      obtain ⟨hstate, hleft, hsize'⟩ := Holds.whole_data ht hsize₁ _ hs.symm
      rw [hleft, hrest]
      exact ⟨Holds.keep hn (hstate.trans hwhole) hsize', by rw [Nat.zero_add, length_rest]⟩
  · rw [if_neg hpart]
    refine ⟨h.fill (by omega), ?_⟩
    dsimp only
    have hmod := Nat.mod_add_mod msg.length (2 ^ k) data.length
    rw [Nat.mod_eq_of_lt (by omega)] at hmod
    rw [List.length_append, hmod]

theorem pad_zeros {n lenOff len : Nat} (hoff : lenOff < n) :
    (lenOff + n - (len + 1) % n) % n =
      if lenOff < len % n + 1 then n - (len % n + 1) + lenOff else lenOff - (len % n + 1) := by
  have hlt := Nat.mod_lt len (by omega : 0 < n)
  have hsucc : (len + 1) % n = (len % n + 1) % n := by rw [Nat.mod_add_mod]
  by_cases hfull : len % n + 1 = n
  · rw [hsucc, hfull, Nat.mod_self, if_pos hoff, Nat.sub_zero, Nat.add_mod_right, Nat.mod_eq_of_lt hoff,
      Nat.sub_self, Nat.zero_add]
  · rw [hsucc, Nat.mod_eq_of_lt (by omega : len % n + 1 < n)]
    split
    · rw [Nat.mod_eq_of_lt (by omega)]
      omega
    · have hround : lenOff + n - (len % n + 1) = lenOff - (len % n + 1) + n := by omega
      rw [hround, Nat.add_mod_right, Nat.mod_eq_of_lt (by omega)]

theorem take_filled {buf bs : List Byte} {pos : Nat} (hfill : pos + bs.length = n)
    (hpos : pos ≤ buf.length) : (Buffer.splice buf pos bs).take n = buf.take pos ++ bs := by
  rw [← hfill, Buffer.take_splice hpos]

theorem splice_length {buf lenBytes : List Byte} {lenOff : Nat} (hsize : n ≤ buf.length)
    (hlen : lenOff + lenBytes.length = n) :
    Buffer.splice (Buffer.splice buf 0 (List.replicate lenOff 0)) lenOff lenBytes =
      Buffer.splice buf 0 (List.replicate lenOff 0 ++ lenBytes) := by
  have hzeros : (List.replicate lenOff (0 : Byte)).length = lenOff := List.length_replicate
  have hsplice := @Buffer.splice_splice _ buf (List.replicate lenOff (0 : Byte)) lenBytes 0 (by omega)
  rwa [hzeros, Nat.zero_add] at hsplice

/-- The last update pads the message. -/
theorem Holds.final {lenOff : Nat} {lenBytes : List Byte} (ht : Takes f n transform)
    (h : Holds f n s₀ msg s) (hlen : lenOff + lenBytes.length = n) (hoff : lenOff < n) :
    (finalBuffer n lenOff transform s (msg.length % n) lenBytes).1 =
      whole f n s₀ (pad n lenOff lenBytes msg) := by
  have hn : 0 < n := by omega
  have hsize := h.size
  have hlt := Nat.mod_lt msg.length hn
  have hone : ([0x80] : List Byte).length = 1 := rfl
  have hpad : whole f n s₀ (pad n lenOff lenBytes msg) = whole f n s.1 (rest n msg ++ (0x80 ::
      List.replicate ((lenOff + n - (msg.length + 1) % n) % n) 0 ++ lenBytes)) := by
    rw [pad, List.append_assoc, whole_append hn, h.state]
  rw [hpad, pad_zeros hoff]
  unfold finalBuffer
  dsimp only
  by_cases hroom : lenOff < msg.length % n + 1
  · rw [if_pos hroom, if_pos hroom]
    dsimp only
    have hzeros : (List.replicate (n - (msg.length % n + 1)) (0 : Byte)).length =
        n - (msg.length % n + 1) := List.length_replicate
    -- The first block: the last bytes, 0x80 and zeros.
    have hsplice : Buffer.splice (Buffer.splice s.2 (msg.length % n) [0x80]) (msg.length % n + 1)
        (List.replicate (n - (msg.length % n + 1)) 0) = Buffer.splice s.2 (msg.length % n)
          ([0x80] ++ List.replicate (n - (msg.length % n + 1)) 0) :=
      Buffer.splice_splice (by omega)
    have hfill : msg.length % n + ([0x80] ++ List.replicate (n - (msg.length % n + 1)) (0 : Byte)).length
        = n := by
      rw [List.length_append, hone, hzeros]
      omega
    have hfirst := @take_filled n s.2 _ _ hfill (by omega)
    rw [hsplice, hfirst, h.buffer]
    have hblocklen : (rest n msg ++ ([0x80] ++ List.replicate (n - (msg.length % n + 1)) 0)).length =
        n := by
      rw [List.length_append, length_rest, hfill]
    have hfilled : n ≤ (s.1, Buffer.splice s.2 (msg.length % n)
        ([0x80] ++ List.replicate (n - (msg.length % n + 1)) 0)).2.length := by
      rw [Buffer.length_splice (by omega)]
      exact hsize
    have hstate := ht.state _ 0 _ hfilled hblocklen
    have hbuffer := ht.buffer _ 0 _ hfilled hblocklen
    generalize transform _ 0 (rest n msg ++ _) = s₁ at hstate hbuffer
    -- The second one: zeros and the length.
    have hsize₁ : n ≤ s₁.2.length := hbuffer ▸ hfilled
    have hall : 0 + (List.replicate lenOff (0 : Byte) ++ lenBytes).length = n := by
      rw [List.length_append, List.length_replicate]
      omega
    rw [Nat.sub_zero, splice_length hsize₁ hlen, take_filled hall (Nat.zero_le _), List.take_zero,
      List.nil_append]
    rw [ht.state _ _ _ (by rw [Buffer.length_splice (by omega)]; exact hsize₁)
      (by rw [← hall, Nat.zero_add]), hstate,
      ← whole_append_of_dvd hn ⟨1, by rw [hblocklen, Nat.mul_one]⟩]
    congr 1
    simp only [List.append_assoc, List.cons_append, List.nil_append, List.replicate_add]
  · rw [if_neg hroom, if_neg hroom]
    dsimp only
    have hzeros : (List.replicate (lenOff - (msg.length % n + 1)) (0 : Byte)).length =
        lenOff - (msg.length % n + 1) := List.length_replicate
    have hsplice : Buffer.splice (Buffer.splice (Buffer.splice s.2 (msg.length % n) [0x80])
        (msg.length % n + 1) (List.replicate (lenOff - (msg.length % n + 1)) 0)) lenOff lenBytes =
          Buffer.splice s.2 (msg.length % n)
            ([0x80] ++ List.replicate (lenOff - (msg.length % n + 1)) 0 ++ lenBytes) := by
      have hfirst := @Buffer.splice_splice _ s.2 [0x80]
        (List.replicate (lenOff - (msg.length % n + 1)) 0) (msg.length % n) (by omega)
      rw [hone] at hfirst
      have hnext := @Buffer.splice_splice _ s.2
        ([0x80] ++ List.replicate (lenOff - (msg.length % n + 1)) 0) lenBytes (msg.length % n) (by
          rw [List.length_append, hone, hzeros]
          omega)
      rw [List.length_append, hone, hzeros] at hnext
      rw [hfirst, ← hnext]
      congr 1
      omega
    have hfill : msg.length % n +
        ([0x80] ++ List.replicate (lenOff - (msg.length % n + 1)) (0 : Byte) ++ lenBytes).length = n := by
      rw [List.length_append, List.length_append, hone, hzeros]
      omega
    rw [hsplice, take_filled hfill (by omega), h.buffer]
    rw [ht.state _ _ _ (by rw [Buffer.length_splice (by omega)]; exact hsize)
      (by rw [List.length_append, length_rest, hfill])]
    rfl

end Update

/-! ## Contexts -/

theorem foldl_message {γ : Type} {taken : List Byte → γ → Prop} {update : γ → Chunk → γ}
    (hupdate : ∀ msg ctx, taken msg ctx → ∀ c, taken (msg ++ c.bytes) (update ctx c)) {ctx : γ}
    (h : taken [] ctx) (chunks : List Chunk) : taken (message chunks) (chunks.foldl update ctx) := by
  have hall : ∀ msg ctx, taken msg ctx →
      taken (msg ++ message chunks) (chunks.foldl update ctx) := by
    induction chunks with
    | nil =>
      intro msg ctx h
      rw [message, List.flatMap_nil, List.append_nil]
      exact h
    | cons c chunks ih =>
      intro msg ctx h
      have hnext := ih _ _ (hupdate msg ctx h c)
      rwa [List.append_assoc] at hnext
  exact hall [] ctx h

theorem inBlock_count {k len : Nat} (hk : k ≤ 64) :
    inBlock (2 ^ k) (BitVec.ofNat 64 len).toNat = len % 2 ^ k := by
  rw [BitVec.toNat_ofNat, inBlock_eq hk, Nat.mod_mod_of_dvd _ (Nat.pow_dvd_pow 2 hk)]

theorem shiftLeft_count (len : Nat) :
    BitVec.ofNat 64 len <<< 3 = BitVec.ofNat 64 (8 * len) := by
  apply BitVec.eq_of_toNat_eq
  rw [BitVec.toNat_shiftLeft, BitVec.toNat_ofNat, BitVec.toNat_ofNat, Nat.shiftLeft_eq]
  omega

end BlockHash
