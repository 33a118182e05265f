import Liblcb.Lib.Buffer
import Liblcb.Utils.Mem

/-!
# Error codes and byte order

The error codes the protocol code returns, and the integers it keeps in network byte order.  A read
is by index: `byteAt` past the end of the block has no meaning in the source, and is zero here.
-/

/-- The codes of `errno.h` the protocol code returns; a call that returns 0 is `Except.ok`. -/
inductive Errno where
  | einval
  | eoverflow
  | ebadmsg
  | eopnotsupp
  | eafnosupport
  | eloop
  | espipe
  | eexist
  | enoent
  /-- `ENOATTR`, which is `ENODATA` where there is none -/
  | enoattr
  | enomem
  | eagain
  | etimedout
  | econnrefused
  | edestaddrreq
  | ehostdown
  | efault
  | enospc
  | enobufs
  /-- any other code, as the system hands it on -/
  | other (code : Nat)
  /-- the return value -1 -/
  | minusOne
  /-- the loop did not end within the fuel -/
  | noReturn
  deriving DecidableEq, Repr

namespace Wire

open Mem

def byteAt (buf : List Byte) (i : Nat) : Byte := buf.getD i 0

/-- The bytes of a 16 bit integer in network order. -/
def be16 (v : BitVec 16) : List Byte := [v.extractLsb' 8 8, v.extractLsb' 0 8]

def be32 (v : BitVec 32) : List Byte :=
  [v.extractLsb' 24 8, v.extractLsb' 16 8, v.extractLsb' 8 8, v.extractLsb' 0 8]

def le16 (v : BitVec 16) : List Byte := (be16 v).reverse

def le32 (v : BitVec 32) : List Byte := (be32 v).reverse

def getBe16 (buf : List Byte) (i : Nat) : BitVec 16 := byteAt buf i ++ byteAt buf (i + 1)

def getBe32 (buf : List Byte) (i : Nat) : BitVec 32 := getBe16 buf i ++ getBe16 buf (i + 2)

def getLe16 (buf : List Byte) (i : Nat) : BitVec 16 := byteAt buf (i + 1) ++ byteAt buf i

def getLe32 (buf : List Byte) (i : Nat) : BitVec 32 := getLe16 buf (i + 2) ++ getLe16 buf i

/-- The bytes from `i` on hold `bs`. -/
def At (buf : List Byte) (i : Nat) (bs : List Byte) : Prop := (buf.drop i).take bs.length = bs

@[simp] theorem length_be16 (v : BitVec 16) : (be16 v).length = 2 := rfl

@[simp] theorem length_be32 (v : BitVec 32) : (be32 v).length = 4 := rfl

theorem be16_append (v : BitVec 16) : v.extractLsb' 8 8 ++ v.extractLsb' 0 8 = v := by
  ext i hi
  simp only [BitVec.getElem_append, BitVec.getElem_extractLsb']
  split
  · rw [Nat.zero_add, BitVec.getLsbD_eq_getElem]
  · rw [show 8 + (i - 8) = i by omega, BitVec.getLsbD_eq_getElem]

theorem be32_append (v : BitVec 32) :
    (v.extractLsb' 24 8 ++ v.extractLsb' 16 8) ++ (v.extractLsb' 8 8 ++ v.extractLsb' 0 8) = v := by
  ext i hi
  simp only [BitVec.getElem_append, BitVec.getElem_extractLsb']
  split
  · split
    · rw [Nat.zero_add, BitVec.getLsbD_eq_getElem]
    · rw [show 8 + (i - 8) = i by omega, BitVec.getLsbD_eq_getElem]
  · split
    · rw [show 16 + (i - 16) = i by omega, BitVec.getLsbD_eq_getElem]
    · rw [show 24 + (i - 16 - 8) = i by omega, BitVec.getLsbD_eq_getElem]

/-! ## Reads beside a run of writes -/

theorem byteAt_splice {buf bs : List Byte} {pos i : Nat} (h : pos + bs.length ≤ buf.length)
    (hdis : i < pos ∨ pos + bs.length ≤ i) : byteAt (Buffer.splice buf pos bs) i = byteAt buf i := by
  rw [byteAt, byteAt, List.getD_eq_getElem?_getD, List.getD_eq_getElem?_getD]
  rcases hdis with hlt | hge
  · rw [Buffer.getElem?_splice_of_lt h hlt]
  · rw [Buffer.getElem?_splice_of_ge h hge]

theorem getBe16_splice {buf bs : List Byte} {pos i : Nat} (h : pos + bs.length ≤ buf.length)
    (hdis : i + 2 ≤ pos ∨ pos + bs.length ≤ i) :
    getBe16 (Buffer.splice buf pos bs) i = getBe16 buf i := by
  rw [getBe16, getBe16, byteAt_splice h (by omega), byteAt_splice h (by omega)]

/-! ## What a block holds at an index -/

namespace At

variable {buf as bs : List Byte} {i : Nat} {b : Byte}

theorem nil (buf : List Byte) (i : Nat) : At buf i [] := rfl

theorem length_le (h : At buf i bs) (hne : bs ≠ []) : i + bs.length ≤ buf.length := by
  have hpos : 0 < bs.length := List.length_pos_iff.mpr hne
  have hlen := congrArg List.length h
  rw [List.length_take, List.length_drop] at hlen
  omega

theorem append_iff : At buf i (as ++ bs) ↔ At buf i as ∧ At buf (i + as.length) bs := by
  unfold At
  rw [List.length_append, List.take_add, List.drop_drop]
  constructor
  · intro h
    by_cases hlen : ((buf.drop i).take as.length).length = as.length
    · exact List.append_inj h hlen
    · -- a block that ends before `as` does cannot hold `as ++ bs`
      have htotal := congrArg List.length h
      rw [List.length_append, List.length_append, List.length_take, List.length_drop,
        List.length_take, List.length_drop] at htotal
      rw [List.length_take, List.length_drop] at hlen
      omega
  · rintro ⟨has, hbs⟩
    rw [has, hbs]

theorem cons_iff : At buf i (b :: bs) ↔ buf[i]? = some b ∧ At buf (i + 1) bs := by
  rw [← List.singleton_append, append_iff]
  refine and_congr_left' ?_
  unfold At
  rw [List.length_singleton, List.take_one, List.head?_drop]
  cases buf[i]? with
  | none => simp
  | some c => simp

theorem byteAt_eq (h : At buf i (b :: bs)) : byteAt buf i = b := by
  rw [byteAt, List.getD_eq_getElem?_getD, (cons_iff.mp h).1]
  rfl

theorem getBe16_eq {v : BitVec 16} (h : At buf i (be16 v)) : getBe16 buf i = v := by
  rw [getBe16, h.byteAt_eq, (cons_iff.mp h).2.byteAt_eq, be16_append]

theorem getBe32_eq {v : BitVec 32} (h : At buf i (be32 v)) : getBe32 buf i = v := by
  have h1 := (cons_iff.mp h).2
  have h2 := (cons_iff.mp h1).2
  have h3 := (cons_iff.mp h2).2
  rw [getBe32, getBe16, getBe16, h.byteAt_eq, h1.byteAt_eq, h2.byteAt_eq, h3.byteAt_eq,
    be32_append]

theorem splice {pos : Nat} (h : pos + bs.length ≤ buf.length) :
    At (Buffer.splice buf pos bs) pos bs := Buffer.take_drop_splice h

theorem frame {pos : Nat} (h : At buf i as) (hbs : pos + bs.length ≤ buf.length)
    (hdis : i + as.length ≤ pos ∨ pos + bs.length ≤ i) : At (Buffer.splice buf pos bs) i as := by
  unfold At
  rw [Buffer.take_drop_splice_of_disjoint hbs hdis]
  exact h

end At

end Wire
