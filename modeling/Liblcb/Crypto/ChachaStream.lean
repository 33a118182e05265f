import Liblcb.Crypto.Chacha

/-!
# ChaCha on a message in chunks

A stream context knows how far its message has come: the block counter, and the bytes of the last
block that are left.  A call adds the next bytes of the key stream to its chunk, so what comes out
depends on the message and on nothing else: not on the chunks, the buffers or the build.
-/

namespace Chacha

open ByteMem Words

/-! ## One call -/

section Call

variable {src : Option Nat} {dst a b n : Nat} {m : Memory} {ks : Nat → Byte}

theorem write_added_append (hsrc : ∀ s, src = some s → Apart s dst (a + b)) :
    write (write m dst (added m src ks a)) (dst + a)
        (added (write m dst (added m src ks a)) (src.map (· + a)) (fun j => ks (a + j)) b) =
      write m dst (added m src ks (a + b)) := by
  have hrest : added (write m dst (added m src ks a)) (src.map (· + a)) (fun j => ks (a + j)) b =
      (List.range b).map fun j => input m src (a + j) ^^^ ks (a + j) := by
    apply List.map_congr_left
    intro j hj
    have hj := List.mem_range.mp hj
    cases src with
    | none => rfl
    | some s =>
      have happart := hsrc s rfl
      unfold Apart at happart
      simp only [input, Option.map_some]
      rw [Nat.add_assoc]
      congr 1
      -- The rest of the source is outside of what has been written.
      by_cases hlt : s + (a + j) < dst
      · exact write_of_lt hlt
      · exact write_of_ge (by rw [length_added]; omega)
  have hall : added m src ks (a + b) = added m src ks a ++
      (List.range b).map fun j => input m src (a + j) ^^^ ks (a + j) := by
    rw [added, List.range_add, List.map_append, List.map_map]
    rfl
  have hlen : dst + a = dst + (added m src ks a).length := by rw [length_added]
  rw [hrest, hall, ← write_append, ← hlen]

theorem savedCrypt_eq {ctx : ContextStr} (hsrc : ∀ s, src = some s → Apart s dst n) :
    savedCrypt ctx src n dst m =
      write m dst (added m src (fun j => ctx.ks (64 - ctx.ksLen + j)) n) := by
  cases src with
  | none =>
    have hread : read ctx.ks (64 - ctx.ksLen) n =
        added m none (fun j => ctx.ks (64 - ctx.ksLen + j)) n := by
      apply List.map_congr_left
      intro j _
      rw [input, BitVec.zero_xor]
    rw [← hread]
    rfl
  | some s =>
    have hlines := @foldl_lines_eq 1 (fun m i => write m (dst + i)
        [m (s + i) ^^^ ctx.ks (64 - ctx.ksLen + i)])
      (fun m j => input m (some s) j ^^^ ctx.ks (64 - ctx.ksLen + j)) m dst n
      (fun m o => by simp [input]) (by
        intro o ho j hj m' hm
        rw [input_of_apart hsrc (by omega) hm])
    rw [Nat.one_mul] at hlines
    exact hlines

/-! ## Positions -/

/-- A context that has gone through `pos` bytes since `c`. -/
structure AtPos (c : Context) (pos : Nat) (ctx : ContextStr) : Prop where
  block : ctx.c = c.after ((pos + 63) / 64)
  left : ctx.ksLen = (64 - pos % 64) % 64
  saved : ∀ j < ctx.ksLen, ctx.ks (64 - ctx.ksLen + j) = c.stream (pos + j)

theorem atPos_init {ctx : ContextStr} (h : ctx.ksLen = 0) : AtPos ctx.c 0 ctx where
  block := (Context.after_zero ctx.c).symm
  left := h
  saved := by
    intro j hj
    omega

def Adds (c : Context) (pos : Nat) (src : Option Nat) (n dst : Nat) (m : Memory)
    (r : ContextStr × Memory) : Prop :=
  AtPos c (pos + n) r.1 ∧ r.2 = write m dst (added m src (fun j => c.stream (pos + j)) n)

variable {c : Context} {ctx : ContextStr} {pos : Nat} (x64 : Bool)

theorem stream_block (hpos : pos % 64 = 0) (j : Nat) :
    (c.after (pos / 64)).stream j = c.stream (pos + j) := by
  rw [Context.stream_after]
  congr 1
  omega

theorem write_added_get {m' : Memory} {p j : Nat} (hj : j < n) :
    write m p (added m' src ks n) (p + j) = input m' src j ^^^ ks j := by
  rw [write_of_mem (by rwa [length_added])]
  simp [added]

theorem adds_tailBlock {src' : Option Nat} {ks' : Memory} (heven : c.rounds % 2 = 0)
    (hc : ctx.c = c.after (pos / 64)) (hpos : pos % 64 = 0) (hzero : n ≠ 0) (hn : n < 64)
    (hsrc : ∀ s, src' = some s → Apart s 0 64)
    (hpad : ∀ j < 64, input ks' src' j = if j < n then input m src j else 0#8) :
    Adds c pos src n dst m
      (let r := chachaBlockAligned x64 ctx.c src' 0 ks'
      ({ c := r.1, ksLen := 64 - n, ks := r.2 }, write m dst (read r.2 0 n))) := by
  have hrounds : ctx.c.rounds % 2 = 0 := by
    rw [hc]
    exact heven
  have hstream : ∀ j, ctx.c.stream j = c.stream (pos + j) := by
    intro j
    rw [hc, stream_block hpos]
  -- The block holds the crypted chunk and, behind it, the bare key stream.
  have hget : ∀ j < 64, write ks' 0 (added ks' src' ctx.c.stream 64) j =
      (if j < n then input m src j else 0#8) ^^^ c.stream (pos + j) := by
    intro j hj
    have hbyte : write ks' 0 (added ks' src' ctx.c.stream 64) (0 + j) =
        input ks' src' j ^^^ ctx.c.stream j := write_added_get hj
    rwa [Nat.zero_add, hpad j hj, hstream] at hbyte
  have hout : read (write ks' 0 (added ks' src' ctx.c.stream 64)) 0 n =
      added m src (fun j => c.stream (pos + j)) n := by
    apply List.map_congr_left
    intro j hj
    have hj := List.mem_range.mp hj
    rw [Nat.zero_add, hget j (by omega), if_pos hj]
  dsimp only
  rw [addsBlock_aligned x64 ctx.c src' 0 ks' hrounds hsrc]
  refine ⟨⟨?_, ?_, ?_⟩, by rw [hout]⟩
  · rw [hc]
    dsimp only
    rw [Context.after_after]
    congr 1
    omega
  · dsimp only
    omega
  · intro j hj
    dsimp only at hj ⊢
    have hoff : 64 - (64 - n) + j = n + j := by omega
    rw [hoff, hget (n + j) (by omega), if_neg (by omega), BitVec.zero_xor, Nat.add_assoc]

theorem adds_tail (heven : c.rounds % 2 = 0) (hc : ctx.c = c.after (pos / 64))
    (hleft : ctx.ksLen = 0) (hpos : pos % 64 = 0) (hn : n < 64) :
    Adds c pos src n dst m (tailCrypt x64 ctx src n dst m) := by
  unfold tailCrypt
  split
  next hzero =>
    subst hzero
    refine ⟨⟨?_, ?_, ?_⟩, write_nil.symm⟩
    · rw [hc]
      congr 1
      omega
    · rw [hleft]
      omega
    · intro j hj
      rw [hleft] at hj
      omega
  next hzero =>
    cases src with
    | none =>
      apply adds_tailBlock x64 heven hc hpos hzero hn
      · exact fun _ => no_source
      · intro j hj
        split <;> rfl
    | some s =>
      apply adds_tailBlock x64 heven hc hpos hzero hn
      · intro s' hs'
        cases hs'
        exact .inl rfl
      · intro j hj
        rw [input, Nat.zero_add]
        by_cases hlt : j < n
        · rw [if_pos hlt, write_of_lt hlt]
          have hlen : j < (read m s n).length := by rwa [length_read]
          have hbyte : write ctx.ks 0 (read m s n) (0 + j) = (read m s n)[j] := write_of_mem hlen
          rwa [Nat.zero_add, getElem_read] at hbyte
        · obtain ⟨i, rfl⟩ : ∃ i, j = n + i := ⟨j - n, by omega⟩
          rw [if_neg hlt, write_of_mem (by rw [List.length_replicate]; omega),
            List.getElem_replicate]
          rfl

theorem adds_blocks (heven : c.rounds % 2 = 0) (hc : ctx.c = c.after (pos / 64))
    (hleft : ctx.ksLen = 0) (hpos : pos % 64 = 0)
    (hsrc : ∀ s, src = some s → Apart s dst n) :
    Adds c pos src n dst m (blocksCrypt x64 ctx src n dst m) := by
  unfold blocksCrypt
  split
  next hge =>
    have hrounds : ctx.c.rounds % 2 = 0 := by
      rw [hc]
      exact heven
    have hlen : n / 64 * 64 + (n - n / 64 * 64) = n := by omega
    have hblocks : ∀ s, src = some s → Apart s dst (64 * (n / 64)) := by
      intro s hs
      have happart := hsrc s hs
      unfold Apart at happart ⊢
      omega
    have hstream : added m src ctx.c.stream (n / 64 * 64) =
        added m src (fun j => c.stream (pos + j)) (n / 64 * 64) := by
      apply added_congr
      intro j _
      rw [hc, stream_block hpos]
    dsimp only
    rw [chachaBlocksTransform_eq x64 hrounds hblocks, Nat.mul_comm 64, hstream]
    have hnext : ctx.c.after (n / 64) = c.after ((pos + n / 64 * 64) / 64) := by
      rw [hc, Context.after_after]
      congr 1
      omega
    have htail := @adds_tail (src.map (· + n / 64 * 64)) (dst + n / 64 * 64) (n - n / 64 * 64)
      (write m dst (added m src (fun j => c.stream (pos + j)) (n / 64 * 64))) c
      { ctx with c := ctx.c.after (n / 64) } (pos + n / 64 * 64) x64 heven hnext hleft (by omega)
      (by omega)
    have happend := @write_added_append src dst (n / 64 * 64) (n - n / 64 * 64) m
      (fun j => c.stream (pos + j)) (by rwa [hlen])
    rw [hlen] at happend
    refine ⟨?_, ?_⟩
    · have hat := htail.1
      rwa [Nat.add_assoc, hlen] at hat
    · rw [← happend, htail.2]
      simp only [Nat.add_assoc]
  next hlt => exact adds_tail x64 heven hc hleft hpos (by omega)

theorem added_saved {count : Nat} (h : AtPos c pos ctx) (hcount : count ≤ ctx.ksLen) :
    added m src (fun j => ctx.ks (64 - ctx.ksLen + j)) count =
      added m src (fun j => c.stream (pos + j)) count := by
  apply added_congr
  intro j hj
  exact h.saved j (by omega)

theorem atPos_saved {count : Nat} (h : AtPos c pos ctx) (hcount : count ≤ ctx.ksLen) :
    AtPos c (pos + count) { ctx with ksLen := ctx.ksLen - count } where
  block := by
    have hleft := h.left
    have hblock := h.block
    dsimp only
    rw [hblock]
    congr 1
    omega
  left := by
    have hleft := h.left
    dsimp only
    omega
  saved := by
    intro j hj
    dsimp only at hj ⊢
    have hleft := h.left
    have hoff : 64 - (ctx.ksLen - count) + j = 64 - ctx.ksLen + (count + j) := by omega
    rw [hoff, h.saved (count + j) (by omega), Nat.add_assoc]

/-- `chacha_str_data_crypt` adds the next bytes of the key stream. -/
theorem adds_dataCrypt (heven : c.rounds % 2 = 0) (h : AtPos c pos ctx)
    (hsrc : ∀ s, src = some s → Apart s dst n) :
    Adds c pos src n dst m (chachaStrDataCrypt x64 ctx src n dst m) := by
  have hleft := h.left
  unfold chachaStrDataCrypt
  split
  next hzero =>
    subst hzero
    exact ⟨h, write_nil.symm⟩
  next hzero =>
    dsimp only
    split
    next hsaved =>
      have hlen : (if ctx.ksLen > n then n else ctx.ksLen) = min n ctx.ksLen := by
        split <;> omega
      rw [hlen]
      have hle : min n ctx.ksLen ≤ ctx.ksLen := Nat.min_le_right ..
      have hpart : ∀ s, src = some s → Apart s dst (min n ctx.ksLen) := by
        intro s hs
        have happart := hsrc s hs
        unfold Apart at happart ⊢
        omega
      rw [savedCrypt_eq hpart, added_saved h hle]
      have hat := atPos_saved h hle
      by_cases hdone : n - min n ctx.ksLen = 0
      · -- The chunk ends within the block.
        have hall : min n ctx.ksLen = n := by omega
        rw [if_pos hdone]
        rw [hall] at hat ⊢
        exact ⟨hat, rfl⟩
      · have hall : min n ctx.ksLen = ctx.ksLen := by omega
        rw [if_neg hdone]
        rw [hall] at hat ⊢
        have hsum : ctx.ksLen + (n - ctx.ksLen) = n := by omega
        have happend := @write_added_append src dst ctx.ksLen (n - ctx.ksLen) m
          (fun j => c.stream (pos + j)) (by rwa [hsum])
        have hnext : ctx.c = c.after ((pos + ctx.ksLen) / 64) := by
          rw [h.block]
          congr 1
          omega
        have hrest : ∀ s, src.map (· + ctx.ksLen) = some s →
            Apart s (dst + ctx.ksLen) (n - ctx.ksLen) := by
          intro s hs
          obtain ⟨s', hs', rfl⟩ := Option.map_eq_some_iff.mp hs
          have happart := hsrc s' hs'
          unfold Apart at happart ⊢
          omega
        have hblocks := @adds_blocks (src.map (· + ctx.ksLen)) (dst + ctx.ksLen) (n - ctx.ksLen)
          (write m dst (added m src (fun j => c.stream (pos + j)) ctx.ksLen)) c
          { ctx with ksLen := ctx.ksLen - ctx.ksLen } (pos + ctx.ksLen) x64 heven hnext
          (Nat.sub_self _) (by omega) hrest
        rw [hsum] at happend
        refine ⟨?_, ?_⟩
        · have hat := hblocks.1
          rwa [Nat.add_assoc, hsum] at hat
        · rw [← happend, hblocks.2]
          simp only [Nat.add_assoc]
    next hsaved =>
      have hnext : ctx.c = c.after (pos / 64) := by
        rw [h.block]
        congr 1
        omega
      exact adds_blocks x64 heven hnext (by omega) (by omega) hsrc

end Call

/-! ## Messages -/

/-- A call: the memory it finds, its source and destination, which are the same or share no byte, and
how many bytes it gets. -/
structure Chunk where
  mem : Memory
  src : Option Nat
  dst : Nat
  bytes : Nat
  apart : ∀ s, src = some s → Apart s dst bytes

/-- The bytes of a chunk; without a source they are zeros. -/
def Chunk.message (chunk : Chunk) : List Byte := (List.range chunk.bytes).map (input chunk.mem chunk.src)

/-- What a chunk has at its destination in a memory. -/
def Chunk.output (chunk : Chunk) (m : Memory) : List Byte := read m chunk.dst chunk.bytes

/-- Gives the chunks to `chacha_str_data_crypt`, one after the other. -/
def feed (x64 : Bool) : ContextStr → List Chunk → List Byte
  | _, [] => []
  | ctx, chunk :: chunks =>
    let r := chachaStrDataCrypt x64 ctx chunk.src chunk.bytes chunk.dst chunk.mem
    chunk.output r.2 ++ feed x64 r.1 chunks

/-- A message with the bytes of a key stream from `pos` on added. -/
def addStream (ks : Nat → Byte) (pos : Nat) (msg : List Byte) : List Byte :=
  msg.mapIdx fun i b => b ^^^ ks (pos + i)

theorem output_added (chunk : Chunk) (ks : Nat → Byte) (pos : Nat) :
    chunk.output (write chunk.mem chunk.dst
      (added chunk.mem chunk.src (fun j => ks (pos + j)) chunk.bytes)) =
      addStream ks pos chunk.message := by
  have hself : read (write chunk.mem chunk.dst
      (added chunk.mem chunk.src (fun j => ks (pos + j)) chunk.bytes)) chunk.dst
        (added chunk.mem chunk.src (fun j => ks (pos + j)) chunk.bytes).length =
      added chunk.mem chunk.src (fun j => ks (pos + j)) chunk.bytes := read_write_self
  rw [length_added] at hself
  rw [Chunk.output, hself]
  apply List.ext_getElem
  · simp [addStream, Chunk.message]
  · intro i hi _
    simp [added, addStream, Chunk.message]

theorem addStream_append (ks : Nat → Byte) (pos : Nat) (a b : List Byte) :
    addStream ks pos (a ++ b) = addStream ks pos a ++ addStream ks (pos + a.length) b := by
  rw [addStream, List.mapIdx_append, addStream, addStream]
  simp only [Nat.add_assoc, Nat.add_comm a.length]

theorem addStream_addStream (ks : Nat → Byte) (pos : Nat) (msg : List Byte) :
    addStream ks pos (addStream ks pos msg) = msg := by
  apply List.ext_getElem
  · simp [addStream]
  · intro i hi _
    simp only [addStream, List.getElem_mapIdx]
    rw [BitVec.xor_assoc, BitVec.xor_self, BitVec.xor_zero]

theorem feed_eq {c : Context} (heven : c.rounds % 2 = 0) (x64 : Bool) (chunks : List Chunk)
    {ctx : ContextStr} {pos : Nat} (h : AtPos c pos ctx) :
    feed x64 ctx chunks = addStream c.stream pos (chunks.flatMap Chunk.message) := by
  induction chunks generalizing ctx pos with
  | nil => rfl
  | cons chunk chunks ih =>
    have hcall := adds_dataCrypt (m := chunk.mem) x64 heven h chunk.apart
    have hlen : chunk.message.length = chunk.bytes := by simp [Chunk.message]
    rw [feed, List.flatMap_cons, addStream_append, hlen]
    rw [ih hcall.1, hcall.2, output_added]

/-! ## The two ciphers -/

inductive Cipher
  | chacha
  | xchacha

/-- `chacha_str_init` or `xchacha_str_init`. -/
def Cipher.strInit : Cipher → ContextStr → Memory → Nat → Option Memory → Option Memory → Nat →
    ContextStr
  | .chacha => chachaStrInit
  | .xchacha => xchachaStrInit

/-- `chacha` or `xchacha`. -/
def Cipher.oneShot : Cipher → Bool → ContextStr → Memory → Nat → Option Memory → Option Memory →
    Nat → Option Nat → Nat → Nat → Memory → Memory
  | .chacha => Chacha.chacha
  | .xchacha => Chacha.xchacha

/-- The key stream of a cipher. -/
def Cipher.stream (cipher : Cipher) (key : Memory) (keySize : Nat) (counter iv : Option Memory)
    (rounds : Nat) : Nat → Byte :=
  match cipher with
  | .chacha =>
    keyStream rounds (constantOf keySize) (keyBytes key keySize) (startOf counter) (optional 0 8 iv)
  | .xchacha =>
    keyStream rounds (constantOf 32) (subKey rounds key keySize iv) (startOf counter)
      (optional 16 8 iv)

section Ciphers

variable (cipher : Cipher) (x64 : Bool) (ctx : ContextStr) (key : Memory) (keySize : Nat)
  (counter iv : Option Memory)

theorem strInit_stream {rounds : Nat} (heven : rounds % 2 = 0) (j : Nat) :
    (cipher.strInit ctx key keySize counter iv rounds).c.stream j =
      cipher.stream key keySize counter iv rounds j := by
  cases cipher with
  | chacha => exact stream_initial (by simp) (chachaInit_state ..) j
  | xchacha =>
    apply stream_initial
    · rw [List.length_append, length_subKey, length_constantOf]
    · exact xchachaInit_state heven ..

theorem strInit_rounds (rounds : Nat) :
    (cipher.strInit ctx key keySize counter iv rounds).c.rounds = rounds := by
  cases cipher <;> rfl

theorem strInit_ksLen (rounds : Nat) :
    (cipher.strInit ctx key keySize counter iv rounds).ksLen = 0 := by
  cases cipher <;> rfl

theorem feed_strInit {rounds : Nat} (heven : rounds % 2 = 0) (chunks : List Chunk) :
    feed x64 (cipher.strInit ctx key keySize counter iv rounds) chunks =
      addStream (cipher.stream key keySize counter iv rounds) 0 (chunks.flatMap Chunk.message) := by
  have hfeed := feed_eq (by rwa [strInit_rounds]) x64 chunks
    (atPos_init (strInit_ksLen cipher ctx key keySize counter iv rounds))
  have hstream : (cipher.strInit ctx key keySize counter iv rounds).c.stream =
      cipher.stream key keySize counter iv rounds :=
    funext (strInit_stream cipher ctx key keySize counter iv heven)
  rwa [hstream] at hfeed

theorem output_oneShot {rounds : Nat} (heven : rounds % 2 = 0) (one : Chunk) :
    one.output (cipher.oneShot x64 ctx key keySize counter iv rounds one.src one.bytes one.dst
        one.mem) =
      addStream (cipher.stream key keySize counter iv rounds) 0 one.message := by
  have hfeed := feed_strInit cipher x64 ctx key keySize counter iv heven [one]
  have hrun : cipher.oneShot x64 ctx key keySize counter iv rounds one.src one.bytes one.dst one.mem =
      if one.bytes = 0 then one.mem
      else (chachaStrDataCrypt x64 (cipher.strInit ctx key keySize counter iv rounds) one.src
        one.bytes one.dst one.mem).2 := by
    cases cipher <;> rfl
  rw [List.flatMap_singleton] at hfeed
  rw [← hfeed, hrun]
  by_cases hzero : one.bytes = 0
  · rw [if_pos hzero, feed, chachaStrDataCrypt, if_pos hzero]
    exact (List.append_nil _).symm
  · rw [if_neg hzero]
    exact (List.append_nil _).symm

end Ciphers

theorem addStream_zeros (ks : Nat → Byte) (n : Nat) :
    addStream ks 0 (.replicate n 0#8) = (List.range n).map ks := by
  apply List.ext_getElem
  · simp [addStream]
  · intro i hi _
    simp [addStream]

theorem message_of_null (chunks : List Chunk) (hnull : ∀ chunk ∈ chunks, chunk.src = none) :
    chunks.flatMap Chunk.message = .replicate (chunks.map Chunk.bytes).sum 0#8 := by
  induction chunks with
  | nil => rfl
  | cons chunk chunks ih =>
    have hzeros : chunk.message = .replicate chunk.bytes 0#8 := by
      rw [Chunk.message, hnull chunk List.mem_cons_self]
      apply List.ext_getElem
      · simp
      · intro i hi _
        simp [input]
    rw [List.flatMap_cons, hzeros, ih fun c hc => hnull c (List.mem_cons_of_mem _ hc),
      List.map_cons, List.sum_cons, List.replicate_append_replicate]

/-- Whatever the chunks and their buffers: what comes out of a run is what the one-shot call gives,
the message with the key stream added; and the one-shot call undoes itself. -/
theorem stream_eq_oneShot (cipher : Cipher) (key : Memory) (keySize : Nat)
    (counter iv : Option Memory) {rounds : Nat} (heven : rounds % 2 = 0) (x64 x64' : Bool)
    (ctx stack stack' : ContextStr) (chunks : List Chunk) :
    let stream := cipher.stream key keySize counter iv rounds
    let message := chunks.flatMap Chunk.message
    let output := feed x64 (cipher.strInit ctx key keySize counter iv rounds) chunks
    let call (stack : ContextStr) (one : Chunk) := one.output (cipher.oneShot x64' stack key keySize
      counter iv rounds one.src one.bytes one.dst one.mem)
    output = addStream stream 0 message ∧
      (∀ one : Chunk, one.message = message → call stack one = output) ∧
      ((∀ chunk ∈ chunks, chunk.src = none) →
        output = (List.range (chunks.map Chunk.bytes).sum).map stream) ∧
      (∀ one again : Chunk, again.message = call stack one → call stack' again = one.message) := by
  intro stream message output call
  have houtput : output = addStream stream 0 message :=
    feed_strInit cipher x64 ctx key keySize counter iv heven chunks
  have hcall : ∀ stack one, call stack one = addStream stream 0 one.message := fun stack one =>
    output_oneShot cipher x64' stack key keySize counter iv heven one
  refine ⟨houtput, ?_, ?_, ?_⟩
  · intro one hone
    rw [houtput, hcall, hone]
  · intro hnull
    rw [houtput, ← addStream_zeros stream]
    exact congrArg (addStream stream 0) (message_of_null chunks hnull)
  · intro one again hagain
    rw [hcall, hagain, hcall, addStream_addStream]

/-- Three bytes at an odd address and a whole block in place. -/
def sampleChunks : List Chunk :=
  [⟨fun a => BitVec.ofNat 8 a, some 1, 101, 3, fun s hs => by cases hs; exact .inr (.inl (by decide))⟩,
    ⟨fun _ => 0, some 8, 8, 64, fun s hs => by cases hs; exact .inl rfl⟩]

theorem stream_eq_oneShot_sample :
    feed true (xchachaStrInit ⟨⟨.replicate 16 0, 0⟩, 0, fun _ => 0⟩ (fun a => BitVec.ofNat 8 a) 32 none
        none 20) sampleChunks =
      addStream (Cipher.stream .xchacha (fun a => BitVec.ofNat 8 a) 32 none none 20) 0
        (sampleChunks.flatMap Chunk.message) :=
  (stream_eq_oneShot .xchacha (fun a => BitVec.ofNat 8 a) 32 none none (by decide : 20 % 2 = 0) true
    true ⟨⟨.replicate 16 0, 0⟩, 0, fun _ => 0⟩ ⟨⟨.replicate 16 0, 0⟩, 0, fun _ => 0⟩
    ⟨⟨.replicate 16 0, 0⟩, 0, fun _ => 0⟩ sampleChunks).1

end Chacha
