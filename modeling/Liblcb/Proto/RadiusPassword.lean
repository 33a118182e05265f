import Liblcb.Lib.ByteMem
import Liblcb.Proto.RadiusVerify

/-!
# Hidden passwords in memory

`radius_pkt_attr_password_encode` and `radius_pkt_attr_password_decode` of `proto/radius.h` on
pointers, so that a call may work in place.  An MD5 context is the list of the bytes it was given.
The key and the authenticator are given by their bytes, and a pointer is `NULL` when it is 0.
-/

namespace Radius.Password

open ByteMem

variable (h : Hashes)

def xorDigest (p : Nat) (digest : List Byte) (m : Memory) : Memory :=
  write m p (xorBytes (read m p 16) digest)

/-- The loop of `radius_pkt_attr_password_encode` at `j`; `ctxWithKey` is the saved context. -/
def encodeLoop (ctxWithKey : List Byte) (buf aligned j : Nat) (ctx : List Byte) (m : Memory) : Memory :=
  let m := xorDigest (buf + j) (h.md5 ctx) m
  if aligned ≤ j + 16 then m
  else encodeLoop ctxWithKey buf aligned (j + 16) (ctxWithKey ++ read m (buf + j) 16) m
termination_by aligned - j

/-- `radius_pkt_attr_password_encode`: `*buf_size_ret`, when it is stored, and the memory. -/
def passwordEncode (authenticator : Option (List Byte)) (password passwordLen : Nat)
    (key : Option (List Byte)) (keyLen buf bufSize : Nat) (m : Memory) :
    Option Nat × Except Errno Memory :=
  if userPasswordMaxLen < passwordLen then (none, .error .einval)
  else
    let aligned := passwordLenAligned passwordLen
    if bufSize < aligned then (some aligned, .error .eoverflow)
    else if authenticator = none ∨ (password = 0 ∧ 0 ≠ passwordLen) ∨ (key = none ∧ 0 ≠ keyLen) ∨
        (buf = 0 ∧ 0 ≠ bufSize) then (some aligned, .error .einval)
    else
      let m := write m buf (read m password passwordLen)
      let m := write m (buf + passwordLen) (List.replicate (aligned - passwordLen) 0)
      let ctxWithKey := (key.getD []).take keyLen
      (some aligned, .ok (encodeLoop h ctxWithKey buf aligned 0
        (ctxWithKey ++ (authenticator.getD []).take 16) m))

/-- The loop of `radius_pkt_attr_password_decode` at `j`: the next context takes the hidden block before
the digest is added to it. -/
def decodeLoop (ctxWithKey : List Byte) (buf len j : Nat) (ctx : List Byte) (m : Memory) : Memory :=
  if j < len then
    let digest := h.md5 ctx
    let ctx := if j + 16 < len then ctxWithKey ++ read m (buf + j) 16 else []
    decodeLoop ctxWithKey buf len (j + 16) ctx (xorDigest (buf + j) digest m)
  else m
termination_by len - j

def strnlen (s : List Byte) : Nat := (s.takeWhile (· ≠ 0)).length

def passwordDecode (authenticator : Option (List Byte)) (encPassword encPasswordLen : Nat)
    (key : Option (List Byte)) (keyLen buf bufSize : Nat) (m : Memory) :
    Option Nat × Except Errno Memory :=
  if authenticator = none ∨ (encPassword = 0 ∧ 0 ≠ encPasswordLen) ∨ 0 = encPasswordLen ∨
      userPasswordMaxLen < encPasswordLen ∨ 0 ≠ encPasswordLen % 16 ∨ (key = none ∧ 0 ≠ keyLen) ∨
      (buf = 0 ∧ 0 ≠ bufSize) then (none, .error .einval)
  else if bufSize < encPasswordLen then (some encPasswordLen, .error .eoverflow)
  else
    let m := write m buf (read m encPassword encPasswordLen)
    let m := if encPasswordLen < bufSize then write m (buf + encPasswordLen) [0] else m
    let ctxWithKey := (key.getD []).take keyLen
    let m := decodeLoop h ctxWithKey buf encPasswordLen 0
      (ctxWithKey ++ (authenticator.getD []).take 16) m
    (some (strnlen (read m buf encPasswordLen)), .ok m)

/-! ## The loops -/

section Loops

variable {h} {m : Memory} {buf p n : Nat} {key ctx prev : List Byte}

theorem length_xorDigest {digest : List Byte} (hd : digest.length = 16) :
    (xorBytes (read m p 16) digest).length = 16 := by
  rw [length_xorBytes (by rw [length_read, hd]), length_read]

theorem read_xorDigest {digest : List Byte} (hd : digest.length = 16) :
    read (xorDigest p digest m) p 16 = xorBytes (read m p 16) digest := by
  have hread : read (xorDigest p digest m) p (xorBytes (read m p 16) digest).length = _ :=
    read_write_self
  rwa [length_xorDigest hd] at hread

theorem read_xorDigest_of_disjoint {q k : Nat} {digest : List Byte} (hd : digest.length = 16)
    (hq : q + k ≤ p ∨ p + 16 ≤ q) : read (xorDigest p digest m) q k = read m q k :=
  read_write_of_disjoint (by rwa [length_xorDigest hd])

theorem encodeBlocks_append {block rest : List Byte} (hblock : block.length = 16) (n : Nat) :
    encodeBlocks h key (n + 1) prev (block ++ rest) =
      xorBytes block (h.md5 (key ++ prev)) ++
        encodeBlocks h key n (xorBytes block (h.md5 (key ++ prev))) rest := by
  rw [encodeBlocks, List.take_left' hblock, List.drop_left' hblock]

theorem decodeBlocks_append {block rest : List Byte} (hblock : block.length = 16) (n : Nat) :
    decodeBlocks h key (n + 1) prev (block ++ rest) =
      xorBytes block (h.md5 (key ++ prev)) ++ decodeBlocks h key n block rest := by
  rw [decodeBlocks, List.take_left' hblock, List.drop_left' hblock]

theorem read_blocks (j n : Nat) : read m (buf + j) (16 * (n + 1)) =
    read m (buf + j) 16 ++ read m (buf + (j + 16)) (16 * n) := by
  rw [← Nat.add_assoc, ← read_append]
  congr 1
  omega

theorem encodeLoop_spec (n : Nat) {j aligned : Nat} (haligned : aligned = j + 16 * (n + 1))
    (hctx : ctx = key ++ prev) :
    read (encodeLoop h key buf aligned j ctx m) (buf + j) (16 * (n + 1)) =
        encodeBlocks h key (n + 1) prev (read m (buf + j) (16 * (n + 1))) ∧
      ∀ q k, q + k ≤ buf + j ∨ buf + aligned ≤ q →
        read (encodeLoop h key buf aligned j ctx m) q k = read m q k := by
  induction n generalizing j ctx prev m with
  | zero =>
    have hend : aligned ≤ j + 16 := by omega
    rw [encodeLoop, if_pos hend, hctx]
    constructor
    · rw [encodeBlocks, encodeBlocks, List.append_nil, take_read (by omega)]
      exact read_xorDigest (h.length_md5 _)
    · intro q k hq
      exact read_xorDigest_of_disjoint (h.length_md5 _) (by omega)
  | succ n ih =>
    have hmore : ¬aligned ≤ j + 16 := by omega
    have hmd5 := h.length_md5 ctx
    rw [encodeLoop, if_neg hmore, read_xorDigest hmd5]
    obtain ⟨hread, hframe⟩ := @ih (xorDigest (buf + j) (h.md5 ctx) m) (key ++ _)
      (xorBytes (read m (buf + j) 16) (h.md5 ctx)) (j + 16) (by omega) rfl
    constructor
    · have hfirst := hframe (buf + j) 16 (by omega)
      rw [read_blocks, hfirst, hread, read_xorDigest hmd5,
        read_xorDigest_of_disjoint hmd5 (by omega), @read_blocks m buf j (n + 1),
        @encodeBlocks_append h key prev _ _ length_read (n + 1), ← hctx]
    · intro q k hq
      rw [hframe q k (by omega)]
      exact read_xorDigest_of_disjoint hmd5 (by omega)

theorem decodeLoop_spec (n : Nat) {j len : Nat} (hlen : len = j + 16 * n)
    (hctx : n ≠ 0 → ctx = key ++ prev) :
    read (decodeLoop h key buf len j ctx m) (buf + j) (16 * n) =
        decodeBlocks h key n prev (read m (buf + j) (16 * n)) ∧
      ∀ q k, q + k ≤ buf + j ∨ buf + len ≤ q →
        read (decodeLoop h key buf len j ctx m) q k = read m q k := by
  induction n generalizing j ctx prev m with
  | zero =>
    have hend : ¬j < len := by omega
    rw [decodeLoop, if_neg hend]
    exact ⟨rfl, fun _ _ _ => rfl⟩
  | succ n ih =>
    have hmore : j < len := by omega
    have hmd5 := h.length_md5 ctx
    rw [decodeLoop, if_pos hmore]
    obtain ⟨hread, hframe⟩ := @ih (xorDigest (buf + j) (h.md5 ctx) m)
      (if j + 16 < len then key ++ read m (buf + j) 16 else []) (read m (buf + j) 16) (j + 16)
      (by omega) (fun hn => if_pos (by omega))
    constructor
    · have hfirst := hframe (buf + j) 16 (by omega)
      rw [read_blocks, hfirst, hread, read_xorDigest hmd5,
        read_xorDigest_of_disjoint hmd5 (by omega), @read_blocks m,
        decodeBlocks_append length_read, ← hctx (Nat.succ_ne_zero n)]
    · intro q k hq
      rw [hframe q k (by omega)]
      exact read_xorDigest_of_disjoint hmd5 (by omega)

end Loops

/-! ## The calls -/

section Calls

variable {h} {m : Memory} {authenticator key : List Byte} {password len buf bufSize : Nat}

theorem passwordLenAligned_eq (len : Nat) : passwordLenAligned len = max 1 ((len + 15) / 16) * 16 := by
  unfold passwordLenAligned
  split <;> omega

/-- The password, padded with zeros, before it is hidden. -/
def padded (m : Memory) (password len : Nat) : List Byte :=
  read m password len ++ List.replicate (passwordLenAligned len - len) 0

theorem length_padded : (padded m password len).length = passwordLenAligned len := by
  have hle := passwordLenAligned_eq len
  unfold padded
  rw [List.length_append, length_read, List.length_replicate]
  omega

theorem passwordEncode_ok (hlen : len ≤ userPasswordMaxLen) (hp : password ≠ 0 ∨ len = 0)
    (hbuf : buf ≠ 0) (hsize : passwordLenAligned len ≤ bufSize) :
    ∃ m', passwordEncode h (some authenticator) password len (some key) key.length buf bufSize m =
        (some (passwordLenAligned len), .ok m') ∧
      read m' buf (passwordLenAligned len) =
        encodeBlocks h key (passwordLenAligned len / 16) (authenticator.take 16)
          (padded m password len) ∧
      ∀ q k, q + k ≤ buf ∨ buf + passwordLenAligned len ≤ q → read m' q k = read m q k := by
  have hnull : ¬(some authenticator = none ∨ (password = 0 ∧ 0 ≠ len) ∨
      (some key = none ∧ 0 ≠ key.length) ∨ (buf = 0 ∧ 0 ≠ bufSize)) := by
    rintro (h | ⟨h, hne⟩ | ⟨h, -⟩ | ⟨h, -⟩)
    · cases h
    · rcases hp with hp | hp
      · exact hp h
      · exact hne hp.symm
    · cases h
    · exact hbuf h
  obtain ⟨n, hn⟩ : ∃ n, passwordLenAligned len = 16 * (n + 1) := by
    have heq := passwordLenAligned_eq len
    exact ⟨max 1 ((len + 15) / 16) - 1, by omega⟩
  have hwrite : write (write m buf (read m password len)) (buf + len)
      (List.replicate (passwordLenAligned len - len) 0) = write m buf (padded m password len) := by
    have happend := @write_append m buf (read m password len)
      (List.replicate (passwordLenAligned len - len) 0)
    rwa [length_read] at happend
  have hpad : read (write m buf (padded m password len)) buf (passwordLenAligned len) =
      padded m password len := by
    have hself := @read_write_self m buf (padded m password len)
    rwa [length_padded] at hself
  obtain ⟨hread, hframe⟩ := @encodeLoop_spec h (write m buf (padded m password len)) buf key
    (key ++ authenticator.take 16) (authenticator.take 16) n 0 (passwordLenAligned len)
    (by rw [hn, Nat.zero_add]) rfl
  rw [Nat.add_zero, ← hn] at hread
  refine ⟨encodeLoop h key buf (passwordLenAligned len) 0 (key ++ authenticator.take 16)
    (write m buf (padded m password len)), ?_, ?_, fun q k hq => ?_⟩
  · unfold passwordEncode
    rw [if_neg (by omega)]
    dsimp only
    rw [if_neg (by omega), if_neg hnull, hwrite, Option.getD_some, Option.getD_some, List.take_length]
  · have hdiv : passwordLenAligned len / 16 = n + 1 := by omega
    rw [hread, hpad, hdiv]
  · rw [hframe q k (by omega)]
    exact read_write_of_disjoint (by rw [length_padded]; omega)

theorem passwordDecode_ok {enc encLen : Nat} (hne : encLen ≠ 0) (hmax : encLen ≤ userPasswordMaxLen)
    (hmod : encLen % 16 = 0) (henc : enc ≠ 0) (hbuf : buf ≠ 0) (hsize : encLen ≤ bufSize) :
    ∃ m', passwordDecode h (some authenticator) enc encLen (some key) key.length buf bufSize m =
        (some (strnlen (read m' buf encLen)), .ok m') ∧
      read m' buf encLen =
        decodeBlocks h key (encLen / 16) (authenticator.take 16) (read m enc encLen) := by
  have hnull : ¬(some authenticator = none ∨ (enc = 0 ∧ 0 ≠ encLen) ∨ 0 = encLen ∨
      userPasswordMaxLen < encLen ∨ 0 ≠ encLen % 16 ∨ (some key = none ∧ 0 ≠ key.length) ∨
      (buf = 0 ∧ 0 ≠ bufSize)) := by
    rintro (h | ⟨h, -⟩ | h | h | h | ⟨h, -⟩ | ⟨h, -⟩)
    · cases h
    · exact henc h
    · exact hne h.symm
    · omega
    · exact h hmod.symm
    · cases h
    · exact hbuf h
  set m1 := write m buf (read m enc encLen) with hm1
  have hcopy : ∀ m2, m2 = (if encLen < bufSize then write m1 (buf + encLen) [0] else m1) →
      read m2 buf encLen = read m enc encLen := by
    have hself := @read_write_self m buf (read m enc encLen)
    rw [length_read, ← hm1] at hself
    rintro m2 rfl
    split
    · rw [read_write_of_disjoint (.inl (Nat.le_refl _)), hself]
    · exact hself
  generalize hm2 : (if encLen < bufSize then write m1 (buf + encLen) [0] else m1) = m2 at hcopy
  obtain ⟨hread, -⟩ := @decodeLoop_spec h m2 buf key (key ++ authenticator.take 16)
    (authenticator.take 16) (encLen / 16) 0 encLen (by omega) (fun _ => rfl)
  have hlen : 16 * (encLen / 16) = encLen := by omega
  rw [Nat.add_zero, hlen, hcopy m2 rfl] at hread
  refine ⟨decodeLoop h key buf encLen 0 (key ++ authenticator.take 16) m2, ?_, hread⟩
  unfold passwordDecode
  rw [if_neg hnull, if_neg (by omega)]
  dsimp only
  rw [← hm1, hm2, Option.getD_some, Option.getD_some, List.take_length]

theorem strnlen_append_zeros {s : List Byte} (hs : ∀ b ∈ s, b ≠ 0) (n : Nat) :
    strnlen (s ++ List.replicate n 0) = s.length := by
  have hzero : (List.replicate n (0 : Byte)).takeWhile (· ≠ 0) = [] := by
    cases n with
    | zero => rfl
    | succ n => rfl
  rw [strnlen, List.takeWhile_append_of_pos (by simpa using hs), hzero, List.append_nil]

/-- A password without zero bytes is read back, with its length, whether the calls work in place or
not. -/
theorem password_readsBack (h : Hashes) {m : Memory} {authenticator key : List Byte}
    {password len buf bufSize dst dstSize : Nat} (hlen : len ≤ 128)
    (hzero : ∀ b ∈ read m password len, b ≠ 0) (hp : password ≠ 0 ∨ len = 0) (hbuf : buf ≠ 0)
    (hsize : max 1 ((len + 15) / 16) * 16 ≤ bufSize) (hdst : dst ≠ 0)
    (hdstSize : max 1 ((len + 15) / 16) * 16 ≤ dstSize) :
    ∃ m' m'', passwordEncode h (some authenticator) password len (some key) key.length buf bufSize m =
        (some (max 1 ((len + 15) / 16) * 16), .ok m') ∧
      (∀ q k, q + k ≤ buf ∨ buf + max 1 ((len + 15) / 16) * 16 ≤ q → read m' q k = read m q k) ∧
      passwordDecode h (some authenticator) buf (max 1 ((len + 15) / 16) * 16) (some key) key.length
          dst dstSize m' = (some len, .ok m'') ∧
      read m'' dst len = read m password len := by
  rw [← passwordLenAligned_eq] at *
  have haligned := passwordLenAligned_eq len
  obtain ⟨m', henc, hread, hframe⟩ :=
    @passwordEncode_ok h m authenticator key password len buf bufSize hlen hp hbuf hsize
  obtain ⟨m'', hdec, hread'⟩ := @passwordDecode_ok h m' authenticator key dst dstSize buf
    (passwordLenAligned len) (by omega) (by show _ ≤ 128; omega) (by omega) hbuf hdst hdstSize
  rw [hread, decode_encodeBlocks h key _ _ _ (by rw [length_padded]; omega)] at hread'
  refine ⟨m', m'', henc, hframe, ?_, ?_⟩
  · rw [hdec, hread', padded, strnlen_append_zeros hzero, length_read]
  · rw [← take_read (show len ≤ passwordLenAligned len by omega), hread', padded]
    exact List.take_left' length_read

end Calls

/-- A password of three bytes at 100, encoded and decoded in place. -/
theorem password_readsBack_inPlace :
    ∃ m' m'', passwordEncode headHashes (some (List.replicate 16 7#8)) 100 3 (some [1#8, 2#8, 3#8, 4#8])
        4 100 16 (fun _ => 65#8) = (some 16, .ok m') ∧
      passwordDecode headHashes (some (List.replicate 16 7#8)) 100 16 (some [1#8, 2#8, 3#8, 4#8])
        4 100 16 m' = (some 3, .ok m'') ∧
      read m'' 100 3 = [65#8, 65#8, 65#8] := by
  obtain ⟨m', m'', henc, -, hdec, hread⟩ :=
    @password_readsBack headHashes (fun _ => 65#8) (List.replicate 16 7#8) [1#8, 2#8, 3#8, 4#8]
      100 3 100 16 100 16 (by decide) (by decide) (.inl (by decide)) (by decide) (by decide)
      (by decide) (by decide)
  exact ⟨m', m'', henc, hdec, hread⟩

end Radius.Password
