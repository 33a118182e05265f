import Liblcb.Utils.RingBuf

/-!
# The writer's state

What holds of the ring buffer over every run of `r_buf_wbuf_get`, `r_buf_wbuf_set` and
`r_buf_wbuf_set2`, provided that a block passed to `r_buf_wbuf_set` fits with its offset.
-/

namespace RingBuf

open Mem Buffer

variable {r r' : RBuf}

theorem sub_of_le {a b : Nat} (ha : a < 2 ^ 64) (h : b ≤ a) : sub a b = a - b := by
  unfold sub
  omega

/-- The blocks of the current round: one after the other from the head of the buffer, none of them
smaller than the minimum, up to the write position. -/
structure Inv (r : RBuf) : Prop where
  min_pos : 0 < r.minBlockSize
  min_le : r.minBlockSize ≤ r.size
  buf_pos : 0 < r.buf
  addr : r.buf + r.size < 2 ^ 64
  count : r.iovCount = r.size / r.minBlockSize + 32
  mem : r.mem.length = r.size
  wpos : r.wpos ≤ r.size
  max : r.iovIndexMax ≤ r.size / r.minBlockSize
  head : r.buf ≤ (r.iov 0).base
  chain : ∀ j < r.iovIndex, (r.iov j).base + (r.iov j).len ≤ (r.iov (j + 1)).base
  blocks : ∀ j < r.iovIndex, r.minBlockSize ≤ (r.iov j).len
  cur : (r.iov r.iovIndex).base + (r.iov r.iovIndex).len ≤ r.buf + r.wpos
  cur_len : (r.iov r.iovIndex).len = 0 ∨ r.minBlockSize ≤ (r.iov r.iovIndex).len
  empty : (r.iov r.iovIndex).len = 0 → r.iovIndex = 0 → r.wpos = 0

section Inv

variable (hinv : Inv r)
include hinv

theorem Inv.base_ge : ∀ j ≤ r.iovIndex, r.buf + j * r.minBlockSize ≤ (r.iov j).base := by
  intro j
  induction j with
  | zero =>
    intro _
    rw [Nat.zero_mul]
    exact hinv.head
  | succ j ih =>
    intro hj
    have hprev := ih (Nat.le_of_succ_le hj)
    have hchain := hinv.chain j hj
    have hblock := hinv.blocks j hj
    rw [Nat.succ_mul]
    omega

theorem Inv.index_le : r.iovIndex ≤ r.size / r.minBlockSize := by
  have hbase := hinv.base_ge r.iovIndex (Nat.le_refl _)
  have hcur := hinv.cur
  have hwpos := hinv.wpos
  rw [Nat.le_div_iff_mul_le hinv.min_pos]
  omega

theorem Inv.index_succ_le (h : r.minBlockSize ≤ (r.iov r.iovIndex).len) :
    r.iovIndex + 1 ≤ r.size / r.minBlockSize := by
  have hbase := hinv.base_ge r.iovIndex (Nat.le_refl _)
  have hcur := hinv.cur
  have hwpos := hinv.wpos
  rw [Nat.le_div_iff_mul_le hinv.min_pos, Nat.succ_mul]
  omega

theorem Inv.end_le {i j : Nat} (hij : i < j) (hj : j ≤ r.iovIndex) :
    (r.iov i).base + (r.iov i).len ≤ (r.iov j).base := by
  induction j with
  | zero => exact absurd hij (Nat.not_lt_zero _)
  | succ j ih =>
    have hchain := hinv.chain j hj
    rcases Nat.lt_or_eq_of_le (Nat.le_of_lt_succ hij) with hlt | rfl
    · have hprev := ih hlt (Nat.le_of_succ_le hj)
      omega
    · exact hchain

end Inv

/-! ## `r_buf_wbuf_get` -/

/-- The index of the entry for the next block. -/
def nextIndex (r : RBuf) : Nat :=
  if (r.iov r.iovIndex).len = 0 then r.iovIndex else r.iovIndex + 1

/-- The writer goes on behind the last block. -/
def advance (r : RBuf) : RBuf :=
  { r with
    iovIndex := nextIndex r
    iov := Function.update r.iov (nextIndex r) ⟨r.buf + r.wpos, 0⟩ }

def rewindIov (r : RBuf) : Nat → IoVec :=
  if (r.iov r.iovIndex).len = 0 then r.iov
  else Function.update r.iov (r.iovIndex + 1) { r.iov (r.iovIndex + 1) with len := 0 }

def tailMoved (r : RBuf) (bufSize : Nat) : List Byte :=
  if r.keepTail = false then r.mem else splice r.mem 0 ((r.mem.drop r.wpos).take bufSize)

def rewind (r : RBuf) : RBuf :=
  { r with
    mem := tailMoved r (r.size - r.wpos)
    wpos := 0
    iov := Function.update (rewindIov r) 0 ⟨r.buf, 0⟩
    iovIndex := 0
    iovIndexMax := nextIndex r - 1
    roundNum := (r.roundNum + 1) % 2 ^ 64
    full := true }

theorem advance_iov_of_lt {j : Nat} (hj : j < nextIndex r) : (advance r).iov j = r.iov j :=
  Function.update_of_ne (Nat.ne_of_lt hj) _ _

theorem advance_iov_self (r : RBuf) :
    (advance r).iov (advance r).iovIndex = ⟨r.buf + r.wpos, 0⟩ := Function.update_self _ _ _

theorem rewind_iov_zero (r : RBuf) : (rewind r).iov 0 = ⟨r.buf, 0⟩ := by
  unfold rewind
  exact Function.update_self 0 _ (rewindIov r)

theorem entry_of_lt {i : Nat} (h : i < r.iovCount) : r.entry i = some (r.iov i) := if_pos h

theorem setEntry_of_lt {i : Nat} (h : i < r.iovCount) (e : IoVec) :
    r.setEntry i e = some { r with iov := Function.update r.iov i e } := if_pos h

theorem nextIov_eq (h : r.iovIndex + 1 < r.iovCount) :
    nextIov r = some { r with iovIndex := nextIndex r, iov := rewindIov r } := by
  unfold nextIov nextIndex rewindIov
  rw [entry_of_lt (Nat.lt_of_succ_lt h), Option.bind_eq_bind, Option.bind_some]
  by_cases hlen : (r.iov r.iovIndex).len = 0
  · rw [if_pos hlen, if_pos hlen, if_pos hlen]
  · rw [if_neg hlen, if_neg hlen, if_neg hlen, entry_of_lt h]
    exact @setEntry_of_lt { r with iovIndex := r.iovIndex + 1 } _ h _

theorem rewindIov_nextIndex_len (r : RBuf) : (rewindIov r (nextIndex r)).len = 0 := by
  unfold rewindIov nextIndex
  by_cases hlen : (r.iov r.iovIndex).len = 0
  · rw [if_pos hlen, if_pos hlen]
    exact hlen
  · rw [if_neg hlen, if_neg hlen, Function.update_self]

theorem update_rewindIov (r : RBuf) (e : IoVec) :
    Function.update (rewindIov r) (nextIndex r) e = Function.update r.iov (nextIndex r) e := by
  unfold rewindIov nextIndex
  by_cases hlen : (r.iov r.iovIndex).len = 0
  · rw [if_pos hlen]
  · rw [if_neg hlen, if_neg hlen, Function.update_idem]

theorem Inv.index_lt (hinv : Inv r) : r.iovIndex + 1 < r.iovCount := by
  have hindex := hinv.index_le
  have hcount := hinv.count
  omega

theorem Inv.nextIndex_le (hinv : Inv r) : nextIndex r ≤ r.size / r.minBlockSize := by
  unfold nextIndex
  split
  case isTrue => exact hinv.index_le
  case isFalse hlen => exact hinv.index_succ_le (hinv.cur_len.resolve_left hlen)

theorem startBlock_eq (h : r.iovIndex < r.iovCount) :
    startBlock r = some
      { r with
        iov := Function.update r.iov r.iovIndex
          { r.iov r.iovIndex with base := r.buf + r.wpos } } := by
  unfold startBlock
  rw [entry_of_lt h]
  exact setEntry_of_lt h _

theorem moveTail_eq {bufSize : Nat} (hmem : r.wpos + bufSize ≤ r.mem.length) :
    moveTail r bufSize = some { r with mem := tailMoved r bufSize } := by
  unfold moveTail tailMoved
  by_cases hkeep : r.keepTail = false
  · rw [if_pos hkeep, if_pos hkeep]
  · rw [if_neg hkeep, if_neg hkeep, if_neg (Nat.not_lt.mpr hmem)]

theorem nextRound_eq (hcount : 0 < r.iovCount) {bufSize : Nat}
    (hmem : r.wpos + bufSize ≤ r.mem.length) :
    nextRound r bufSize = some
      { r with
        mem := tailMoved r bufSize
        wpos := 0
        iov := Function.update r.iov 0 { r.iov 0 with len := 0 }
        iovIndex := 0
        iovIndexMax := sub r.iovIndex 1
        roundNum := (r.roundNum + 1) % 2 ^ 64
        full := true } := by
  unfold nextRound
  rw [moveTail_eq hmem, Option.bind_eq_bind, Option.bind_some,
    @entry_of_lt { r with mem := tailMoved r bufSize } 0 hcount]
  exact @setEntry_of_lt { r with
    mem := tailMoved r bufSize
    wpos := 0, iovIndexMax := sub r.iovIndex 1, iovIndex := 0
    roundNum := (r.roundNum + 1) % 2 ^ 64, full := true } _ hcount _

theorem Inv.nextIndex_pos (hinv : Inv r) (hwpos : r.wpos ≠ 0) : 0 < nextIndex r := by
  unfold nextIndex
  split
  case isTrue hlen => exact Nat.pos_of_ne_zero fun hindex => hwpos (hinv.empty hlen hindex)
  case isFalse => exact Nat.succ_pos _

theorem nextIndex_le_succ (r : RBuf) : nextIndex r ≤ r.iovIndex + 1 := by
  unfold nextIndex
  split <;> omega

theorem wbufGet_advance {minBufSize : Nat} (hcount : r.iovIndex + 1 < r.iovCount)
    (hfree : sub r.size r.wpos = r.size - r.wpos) (hsize : ¬r.size < minBufSize)
    (hroom : ¬(r.size - r.wpos < minBufSize ∨ r.size - r.wpos < r.minBlockSize)) :
    wbufGet r minBufSize = some (some (r.buf + r.wpos, r.size - r.wpos), advance r) := by
  have hnext : nextIndex r < r.iovCount := Nat.lt_of_le_of_lt (nextIndex_le_succ r) hcount
  unfold wbufGet
  rw [if_neg hsize]
  simp only [hfree, nextIov_eq hcount, Option.bind_eq_bind, Option.bind_some]
  rw [if_neg hroom, @startBlock_eq { r with iovIndex := nextIndex r, iov := rewindIov r } hnext,
    Option.bind_some]
  simp only [Function.update_self, rewindIov_nextIndex_len, update_rewindIov]
  rfl

/-- There is not enough room behind the last block. -/
def Rewinds (r : RBuf) (minBufSize : Nat) : Prop :=
  ¬r.size < minBufSize ∧ (r.size - r.wpos < minBufSize ∨ r.size - r.wpos < r.minBlockSize)

theorem Inv.wpos_ne_zero (hinv : Inv r) {minBufSize : Nat} (hrewinds : Rewinds r minBufSize) :
    r.wpos ≠ 0 := by
  have hmin := hinv.min_le
  unfold Rewinds at hrewinds
  omega

theorem wbufGet_rewind (hinv : Inv r) {minBufSize : Nat} (hsize : ¬r.size < minBufSize)
    (hfull : r.size - r.wpos < minBufSize ∨ r.size - r.wpos < r.minBlockSize) :
    wbufGet r minBufSize = some (some (r.buf, r.size), rewind r) := by
  have haddr := hinv.addr
  have hcount := hinv.index_lt
  have hindex := hinv.nextIndex_le
  have hle := hinv.wpos
  have hfree : sub r.size r.wpos = r.size - r.wpos := sub_of_le (by omega) hle
  have hwpos := hinv.wpos_ne_zero ⟨hsize, hfull⟩
  have hmax : sub (nextIndex r) 1 = nextIndex r - 1 := by
    have hdiv : r.size / r.minBlockSize ≤ r.size := Nat.div_le_self _ _
    exact sub_of_le (by omega) (hinv.nextIndex_pos hwpos)
  have hmem : r.wpos + (r.size - r.wpos) ≤ r.mem.length := by
    rw [hinv.mem]
    omega
  unfold wbufGet
  rw [if_neg hsize]
  simp only [hfree, nextIov_eq hcount, Option.bind_eq_bind, Option.bind_some]
  rw [if_pos hfull, @nextRound_eq { r with iovIndex := nextIndex r, iov := rewindIov r }
    (Nat.zero_lt_of_lt hcount) _ hmem, Option.bind_some, startBlock_eq (Nat.zero_lt_of_lt hcount),
    Option.bind_some]
  simp only [Function.update_self, Function.update_idem, hmax, Nat.add_zero]
  rfl

theorem wbufGet_eq (hinv : Inv r) (minBufSize : Nat) :
    wbufGet r minBufSize =
      if r.size < minBufSize then some (none, r)
      else if r.size - r.wpos < minBufSize ∨ r.size - r.wpos < r.minBlockSize then
        some (some (r.buf, r.size), rewind r)
      else some (some (r.buf + r.wpos, r.size - r.wpos), advance r) := by
  have haddr := hinv.addr
  by_cases hsize : r.size < minBufSize
  · rw [if_pos hsize]
    exact if_pos hsize
  · rw [if_neg hsize]
    by_cases hfull : r.size - r.wpos < minBufSize ∨ r.size - r.wpos < r.minBlockSize
    · rw [if_pos hfull]
      exact wbufGet_rewind hinv hsize hfull
    · rw [if_neg hfull]
      exact wbufGet_advance hinv.index_lt (sub_of_le (by omega) hinv.wpos) hsize hfull

theorem rewind_roundNum_ne (r : RBuf) : (rewind r).roundNum ≠ r.roundNum := by
  show (r.roundNum + 1) % 2 ^ 64 ≠ r.roundNum
  omega

theorem wbufGet_cases (hinv : Inv r) (minBufSize : Nat) :
    (∃ got, wbufGet r minBufSize = some (got, r)) ∨
      (Rewinds r minBufSize ∧ ∃ got, wbufGet r minBufSize = some (got, rewind r)) ∨
      ∃ got, wbufGet r minBufSize = some (got, advance r) := by
  rw [wbufGet_eq hinv]
  by_cases hsize : r.size < minBufSize
  · rw [if_pos hsize]
    exact .inl ⟨_, rfl⟩
  · rw [if_neg hsize]
    by_cases hfull : r.size - r.wpos < minBufSize ∨ r.size - r.wpos < r.minBlockSize
    · rw [if_pos hfull]
      exact .inr (.inl ⟨⟨hsize, hfull⟩, _, rfl⟩)
    · rw [if_neg hfull]
      exact .inr (.inr ⟨_, rfl⟩)

theorem Inv.end_le_wpos (hinv : Inv r) {j : Nat} (hj : j < nextIndex r) :
    (r.iov j).base + (r.iov j).len ≤ r.buf + r.wpos := by
  have hcur := hinv.cur
  have hle : j ≤ r.iovIndex := by
    unfold nextIndex at hj
    split at hj <;> omega
  rcases Nat.lt_or_eq_of_le hle with hlt | rfl
  · have hend := hinv.end_le hlt (Nat.le_refl _)
    omega
  · exact hcur

theorem Inv.block_of_lt (hinv : Inv r) {j : Nat} (hj : j < nextIndex r) :
    r.minBlockSize ≤ (r.iov j).len := by
  unfold nextIndex at hj
  split at hj
  case isTrue => exact hinv.blocks j hj
  case isFalse hlen =>
    rcases Nat.lt_or_eq_of_le (Nat.le_of_lt_succ hj) with hlt | rfl
    · exact hinv.blocks j hlt
    · exact hinv.cur_len.resolve_left hlen

theorem Inv.advance (hinv : Inv r) : Inv (advance r) := by
  have hle := nextIndex_le_succ r
  refine ⟨hinv.min_pos, hinv.min_le, hinv.buf_pos, hinv.addr, hinv.count, hinv.mem, hinv.wpos,
    hinv.max, ?_, fun j (hj : j < nextIndex r) => ?_, fun j hj => ?_, ?_, .inl ?_, ?_⟩
  · rcases Nat.eq_zero_or_pos (nextIndex r) with hzero | hpos
    · have hself := advance_iov_self r
      rw [show (RingBuf.advance r).iovIndex = 0 from hzero] at hself
      rw [hself]
      exact Nat.le_add_right _ _
    · rw [advance_iov_of_lt hpos]
      exact hinv.head
  · rw [advance_iov_of_lt hj]
    rcases Nat.lt_or_eq_of_le (Nat.succ_le_of_lt hj) with hlt | heq
    · rw [advance_iov_of_lt hlt]
      exact hinv.chain j (by omega)
    · have hself := advance_iov_self r
      rw [show (RingBuf.advance r).iovIndex = j + 1 from heq.symm] at hself
      rw [hself]
      exact hinv.end_le_wpos hj
  · rw [advance_iov_of_lt hj]
    exact hinv.block_of_lt hj
  · rw [advance_iov_self]
    exact Nat.le_refl _
  · rw [advance_iov_self]
  · intro _ hindex
    by_contra hwpos
    exact absurd hindex (Nat.ne_of_gt (hinv.nextIndex_pos hwpos))

theorem Inv.length_tailMoved (hinv : Inv r) :
    (tailMoved r (r.size - r.wpos)).length = r.size := by
  have hmem := hinv.mem
  have hwpos := hinv.wpos
  unfold tailMoved
  split
  · exact hmem
  · rw [length_splice, hmem]
    rw [List.length_take, List.length_drop]
    omega

theorem Inv.rewind (hinv : Inv r) : Inv (rewind r) := by
  have hcur : (RingBuf.rewind r).iov (RingBuf.rewind r).iovIndex = ⟨r.buf, 0⟩ := rewind_iov_zero r
  refine ⟨hinv.min_pos, hinv.min_le, hinv.buf_pos, hinv.addr, hinv.count, hinv.length_tailMoved,
    Nat.zero_le _, (Nat.sub_le _ _).trans hinv.nextIndex_le, ?_, nofun, nofun, ?_, .inl ?_,
    fun _ _ => rfl⟩
  · rw [rewind_iov_zero]
    exact Nat.le_refl _
  · rw [hcur]
    exact Nat.le_refl _
  · rw [hcur]

theorem Inv.get (hinv : Inv r) (minBufSize : Nat) :
    ∃ got r', wbufGet r minBufSize = some (got, r') ∧ Inv r' ∧
      ∀ ptr size, got = some (ptr, size) → r.buf ≤ ptr ∧ ptr + size ≤ r.buf + r.size := by
  have hwpos := hinv.wpos
  rw [wbufGet_eq hinv]
  split
  · exact ⟨none, r, rfl, hinv, nofun⟩
  · split
    · refine ⟨_, _, rfl, hinv.rewind, ?_⟩
      intro ptr size h
      rw [Option.some.injEq, Prod.mk.injEq] at h
      omega
    · refine ⟨_, _, rfl, hinv.advance, ?_⟩
      intro ptr size h
      rw [Option.some.injEq, Prod.mk.injEq] at h
      omega

/-! ## The two commits -/

def commit (r : RBuf) (e : IoVec) (wpos : Nat) (frag : Bool) : RBuf :=
  { r with
    iov := Function.update r.iov r.iovIndex e, wpos, frag
    iovIndexMax := max r.iovIndexMax r.iovIndex }

theorem commit_iov_of_ne {e : IoVec} {wpos j : Nat} {frag : Bool} (hj : j ≠ r.iovIndex) :
    (commit r e wpos frag).iov j = r.iov j := Function.update_of_ne hj _ _

theorem commit_iov_self (r : RBuf) (e : IoVec) (wpos : Nat) (frag : Bool) :
    (commit r e wpos frag).iov r.iovIndex = e := Function.update_self _ _ _

theorem Inv.commit (hinv : Inv r) {e : IoVec} {wpos : Nat} (frag : Bool)
    (hbase : (r.iov r.iovIndex).base ≤ e.base) (hlen : r.minBlockSize ≤ e.len)
    (hend : e.base + e.len ≤ r.buf + wpos) (hwpos : wpos ≤ r.size) :
    Inv (commit r e wpos frag) := by
  have hcur : (RingBuf.commit r e wpos frag).iov (RingBuf.commit r e wpos frag).iovIndex = e :=
    commit_iov_self r e wpos frag
  have hpos := hinv.min_pos
  refine ⟨hinv.min_pos, hinv.min_le, hinv.buf_pos, hinv.addr, hinv.count, hinv.mem, hwpos,
    Nat.max_le.mpr ⟨hinv.max, hinv.index_le⟩, ?_, fun j (hj : j < r.iovIndex) => ?_,
    fun j (hj : j < r.iovIndex) => ?_, ?_, .inr ?_, ?_⟩
  · by_cases hzero : r.iovIndex = 0
    · have hhead := hinv.head
      have hself := commit_iov_self r e wpos frag
      rw [hzero] at hself hbase
      rw [hself]
      exact hhead.trans hbase
    · rw [commit_iov_of_ne (Ne.symm hzero)]
      exact hinv.head
  -- Only the last link of the chain is new.
  · have hchain := hinv.chain j hj
    rw [commit_iov_of_ne (Nat.ne_of_lt hj)]
    rcases Nat.lt_or_eq_of_le (Nat.succ_le_of_lt hj) with hlt | heq
    · rw [commit_iov_of_ne (Nat.ne_of_lt hlt)]
      exact hchain
    · have hnext : j + 1 = r.iovIndex := heq
      rw [hnext] at hchain ⊢
      rw [commit_iov_self]
      exact hchain.trans hbase
  · rw [commit_iov_of_ne (Nat.ne_of_lt hj)]
    exact hinv.blocks j hj
  · rw [hcur]
    exact hend
  · rw [hcur]
    exact hlen
  · intro hzero
    rw [hcur] at hzero
    omega

theorem wbufSet_eq (hinv : Inv r) {offset bufSize : Nat} (hfits : bufSize ≤ r.size - r.wpos) :
    wbufSet r offset bufSize =
      if bufSize ≤ offset ∨ bufSize - offset < r.minBlockSize then some (.einval, r)
      else some (.ok, commit r ⟨(r.iov r.iovIndex).base + offset, bufSize - offset⟩ (r.wpos + bufSize)
        (r.frag || offset ≠ 0)) := by
  have haddr := hinv.addr
  have hwpos := hinv.wpos
  have hcur := hinv.cur
  have hindex : r.iovIndex < r.iovCount := Nat.lt_of_succ_lt hinv.index_lt
  have hfree : sub r.size r.wpos = r.size - r.wpos := sub_of_le (by omega) hwpos
  unfold wbufSet
  by_cases hempty : bufSize ≤ offset
  · rw [if_pos hempty, if_pos (.inl hempty)]
  · rw [if_neg hempty]
    by_cases hsmall : bufSize - offset < r.minBlockSize
    · simp only [hsmall, true_or, or_true, if_true]
    · have hroom : ¬(bufSize - offset < r.minBlockSize ∨ sub r.size r.wpos < bufSize - offset) := by
        omega
      have hbase : (if offset = 0 then (r.iov r.iovIndex).base
          else ((r.iov r.iovIndex).base + offset) % 2 ^ 64) = (r.iov r.iovIndex).base + offset := by
        split
        · omega
        · exact Nat.mod_eq_of_lt (by omega)
      have hpos : (r.wpos + bufSize) % 2 ^ 64 = r.wpos + bufSize := Nat.mod_eq_of_lt (by omega)
      have hok : ¬(bufSize ≤ offset ∨ bufSize - offset < r.minBlockSize) := by omega
      simp only [if_neg hroom, if_neg hok, entry_of_lt hindex, Option.bind_eq_bind, Option.bind_some, hbase,
        setEntry_of_lt hindex, hpos]
      rfl

theorem Inv.set (hinv : Inv r) {offset bufSize : Nat}
    (hfits : bufSize - offset ≤ r.size - r.wpos → bufSize ≤ r.size - r.wpos) :
    ∃ ret r', wbufSet r offset bufSize = some (ret, r') ∧ Inv r' := by
  have haddr := hinv.addr
  have hwpos := hinv.wpos
  have hcur := hinv.cur
  by_cases hroom : bufSize - offset ≤ r.size - r.wpos
  · have hle := hfits hroom
    rw [wbufSet_eq hinv hle]
    split
    case isTrue => exact ⟨_, _, rfl, hinv⟩
    case isFalse hok =>
      rw [not_or] at hok
      refine ⟨_, _, rfl, hinv.commit _ (Nat.le_add_right _ _) (Nat.le_of_not_lt hok.2) ?_ (by omega)⟩
      show (r.iov r.iovIndex).base + offset + (bufSize - offset) ≤ r.buf + (r.wpos + bufSize)
      omega
  · refine ⟨.einval, r, ?_, hinv⟩
    have hfree : sub r.size r.wpos = r.size - r.wpos := sub_of_le (by omega) hwpos
    unfold wbufSet
    split
    · rfl
    · rw [hfree]
      exact if_pos (.inr (Nat.lt_of_not_le hroom))

/-- The state after `r_buf_wbuf_set2` has committed a block. -/
def commit2 (r : RBuf) (buf bufSize : Nat) : RBuf :=
  advance (commit r ⟨buf, bufSize⟩ (buf + bufSize - r.buf) (r.frag || buf ≠ (r.iov r.iovIndex).base))

theorem nextIndex_commit {e : IoVec} (hlen : e.len ≠ 0) (wpos : Nat) (frag : Bool) :
    nextIndex (commit r e wpos frag) = r.iovIndex + 1 := by
  unfold nextIndex
  show (if ((commit r e wpos frag).iov r.iovIndex).len = 0 then r.iovIndex else r.iovIndex + 1) = _
  rw [commit_iov_self, if_neg hlen]

theorem wbufSet2_eq (hinv : Inv r) {buf bufSize : Nat} (haddress : buf + bufSize < 2 ^ 64) :
    wbufSet2 r buf bufSize =
      if bufSize < r.minBlockSize ∨ buf < (r.iov r.iovIndex).base ∨
          r.buf + r.size < buf + bufSize then some (.einval, r)
      else some (.ok, commit2 r buf bufSize) := by
  have hmin := hinv.min_pos
  have hhead := hinv.base_ge r.iovIndex (Nat.le_refl _)
  have hbuf := hinv.buf_pos
  have hcount := hinv.index_lt
  have hindex : r.iovIndex < r.iovCount := Nat.lt_of_succ_lt hcount
  have hend : (buf + bufSize) % 2 ^ 64 = buf + bufSize := Nat.mod_eq_of_lt haddress
  unfold wbufSet2
  by_cases hnull : buf = 0
  · rw [if_pos hnull, if_pos (.inr (.inl (by omega)))]
  · rw [if_neg hnull]
    simp only [entry_of_lt hindex, Option.bind_eq_bind, Option.bind_some, hend]
    by_cases hsmall : bufSize < r.minBlockSize ∨ buf < (r.iov r.iovIndex).base
    · rw [if_pos hsmall, if_pos (hsmall.imp_right .inl)]
    · rw [if_neg hsmall]
      by_cases hout : r.buf + r.size < buf + bufSize
      · rw [if_pos hout, if_pos (.inr (.inr hout))]
      · have hpos : sub (buf + bufSize) r.buf = buf + bufSize - r.buf := sub_of_le haddress (by omega)
        have hback : r.buf + (buf + bufSize - r.buf) = buf + bufSize := by omega
        have hlen : (⟨buf, bufSize⟩ : IoVec).len ≠ 0 := by
          show bufSize ≠ 0
          omega
        rw [if_neg hout, if_neg (by omega), setEntry_of_lt hindex, Option.bind_some]
        unfold commit2 advance
        rw [nextIndex_commit hlen]
        simp only [RBuf.setEntry, if_pos hcount, Option.bind_some, hpos]
        unfold commit
        rw [hback]

theorem Inv.commit2 (hinv : Inv r) {buf bufSize : Nat} (hmin : r.minBlockSize ≤ bufSize)
    (hbase : (r.iov r.iovIndex).base ≤ buf) (hend : buf + bufSize ≤ r.buf + r.size) :
    Inv (commit2 r buf bufSize) := by
  have hhead := hinv.base_ge r.iovIndex (Nat.le_refl _)
  refine (hinv.commit _ hbase hmin ?_ (by omega)).advance
  show buf + bufSize ≤ r.buf + (buf + bufSize - r.buf)
  omega

theorem Inv.set2 (hinv : Inv r) {buf bufSize : Nat} (haddress : buf + bufSize < 2 ^ 64) :
    ∃ ret r', wbufSet2 r buf bufSize = some (ret, r') ∧ Inv r' := by
  rw [wbufSet2_eq hinv haddress]
  split
  case isTrue => exact ⟨_, _, rfl, hinv⟩
  case isFalse hok =>
    rw [not_or, not_or, Nat.not_lt, Nat.not_lt, Nat.not_lt] at hok
    exact ⟨_, _, rfl, hinv.commit2 hok.1 hok.2.1 hok.2.2⟩

/-! ## Runs -/

/-- A call of the writer. -/
inductive Op where
  | get (minBufSize : Nat)
  | set (offset bufSize : Nat)
  | set2 (buf bufSize : Nat)

/-- The state after a call, accepted or refused. -/
def step (r : RBuf) : Op → Option RBuf
  | .get minBufSize => (wbufGet r minBufSize).map Prod.snd
  | .set offset bufSize => (wbufSet r offset bufSize).map Prod.snd
  | .set2 buf bufSize => (wbufSet2 r buf bufSize).map Prod.snd

/-- A block passed to `r_buf_wbuf_set` that passes the check for its data fits with its offset, and
the end of a block passed to `r_buf_wbuf_set2` is an address. -/
def Fits (r : RBuf) : Op → Prop
  | .get _ => True
  | .set offset bufSize => bufSize - offset ≤ r.size - r.wpos → bufSize ≤ r.size - r.wpos
  | .set2 buf bufSize => buf + bufSize < 2 ^ 64

theorem Inv.step (hinv : Inv r) {op : Op} (hfits : Fits r op) :
    ∃ r', step r op = some r' ∧ Inv r' := by
  cases op with
  | get minBufSize =>
    rcases hinv.get minBufSize with ⟨got, r', hget, hinv', -⟩
    refine ⟨r', ?_, hinv'⟩
    show (wbufGet r minBufSize).map _ = _
    rw [hget]
    rfl
  | set offset bufSize =>
    rcases hinv.set hfits with ⟨ret, r', hset, hinv'⟩
    refine ⟨r', ?_, hinv'⟩
    show (wbufSet r offset bufSize).map _ = _
    rw [hset]
    rfl
  | set2 buf bufSize =>
    rcases hinv.set2 hfits with ⟨ret, r', hset, hinv'⟩
    refine ⟨r', ?_, hinv'⟩
    show (wbufSet2 r buf bufSize).map _ = _
    rw [hset]
    rfl

/-- The states after calls that fit. -/
inductive Reach (start : RBuf) : RBuf → Prop where
  | refl : Reach start start
  | step {r r' : RBuf} (op : Op) (hreach : Reach start r) (hfits : Fits r op)
      (hstep : step r op = some r') : Reach start r'

theorem Reach.inv {start : RBuf} (hstart : Inv start) (hreach : Reach start r) : Inv r := by
  induction hreach with
  | refl => exact hstart
  | step op _ hfits hstep ih =>
    rcases ih.step hfits with ⟨r', hstep', hinv⟩
    rw [hstep, Option.some.injEq] at hstep'
    rw [hstep']
    exact hinv

section First

variable {buf minBlockSize minBufSize : Nat} {mem : List Byte} {keepTail : Bool} {got : Nat × Nat}
  {start : RBuf}

theorem alloc_eq (halloc : alloc buf mem minBlockSize keepTail = some r) :
    minBlockSize ≠ 0 ∧
      r = { buf, mem, size := mem.length, wpos := 0, iov := fun _ => ⟨0, 0⟩
            iovCount := (mem.length / minBlockSize + 32) % 2 ^ 64
            iovIndex := 0, iovIndexMax := 0, roundNum := 0, minBlockSize
            frag := false, full := false, keepTail } := by
  unfold alloc at halloc
  split at halloc
  case isTrue => exact absurd halloc nofun
  case isFalse hpos =>
    rw [not_or] at hpos
    exact ⟨hpos.2, (Option.some.inj halloc).symm⟩

theorem iovCount_first (hbuf : 2 ^ 12 ≤ buf) (haddr : buf + mem.length < 2 ^ 64)
    (halloc : alloc buf mem minBlockSize keepTail = some r) : r.iovCount = mem.length / minBlockSize + 32 := by
  rcases alloc_eq halloc with ⟨-, rfl⟩
  have hdiv : mem.length / minBlockSize ≤ mem.length := Nat.div_le_self _ _
  exact Nat.mod_eq_of_lt (by omega)

variable (hbuf : 2 ^ 12 ≤ buf) (haddr : buf + mem.length < 2 ^ 64)
  (hmin : minBlockSize ≤ mem.length) (halloc : alloc buf mem minBlockSize keepTail = some r)
  (hget : wbufGet r minBufSize = some (some got, start))
include hbuf haddr hmin halloc hget

theorem wbufGet_first : start = advance r := by
  have hcount := iovCount_first hbuf haddr halloc
  rcases alloc_eq halloc with ⟨-, hr⟩
  have hsize : ¬r.size < minBufSize := by
    intro h
    unfold wbufGet at hget
    rw [if_pos h] at hget
    exact absurd hget nofun
  have hcount' : r.iovIndex + 1 < r.iovCount := by
    rw [hcount, hr]
    show 0 + 1 < _
    exact Nat.lt_of_lt_of_le (by decide) (Nat.le_add_left 32 _)
  have hfree : sub r.size r.wpos = r.size - r.wpos := by
    rw [hr]
    exact sub_of_le (by show mem.length < 2 ^ 64; omega) (Nat.zero_le _)
  have hroom : ¬(r.size - r.wpos < minBufSize ∨ r.size - r.wpos < r.minBlockSize) := by
    rw [hr] at hsize ⊢
    rw [not_or]
    exact ⟨hsize, Nat.not_lt.mpr hmin⟩
  rw [wbufGet_advance hcount' hfree hsize hroom, Option.some.injEq, Prod.mk.injEq] at hget
  exact hget.2.symm

theorem inv_first : Inv start := by
  have hcount := iovCount_first hbuf haddr halloc
  have hstart := wbufGet_first hbuf haddr hmin halloc hget
  rcases alloc_eq halloc with ⟨hne, hr⟩
  have hindex : (advance r).iovIndex = 0 := by
    rw [hr]
    rfl
  have hself := advance_iov_self r
  rw [hindex] at hself
  subst hstart
  subst hr
  refine ⟨Nat.pos_of_ne_zero hne, hmin, by show 0 < buf; omega, haddr, hcount, rfl,
    Nat.zero_le _, Nat.zero_le _, ?_, nofun, nofun, ?_, .inl ?_, fun _ _ => rfl⟩
  · rw [hself]
    exact Nat.le_refl _
  · rw [hindex, hself]
    exact Nat.le_refl _
  · rw [hindex, hself]

end First

/-- What is promised about the writer's state. -/
structure Sound (r : RBuf) : Prop where
  wpos : r.wpos ≤ r.size
  index : r.iovIndex < r.iovCount
  indexMax : r.iovIndexMax < r.iovCount
  inside : ∀ j ≤ r.iovIndex, 0 < (r.iov j).len →
    r.buf ≤ (r.iov j).base ∧ (r.iov j).base + (r.iov j).len ≤ r.buf + r.size
  ordered : ∀ i j, i < j → j ≤ r.iovIndex → (r.iov i).base + (r.iov i).len ≤ (r.iov j).base
  get : ∀ minBufSize, ∃ got r', wbufGet r minBufSize = some (got, r') ∧
    ∀ ptr size, got = some (ptr, size) → r.buf ≤ ptr ∧ ptr + size ≤ r.buf + r.size

theorem Inv.sound (hinv : Inv r) : Sound r := by
  have hcount := hinv.count
  have hmax := hinv.max
  refine ⟨hinv.wpos, Nat.lt_of_succ_lt hinv.index_lt, by omega, fun j hj hlen => ?_,
    fun i j hij hj => hinv.end_le hij hj, fun minBufSize => ?_⟩
  · have hbase := hinv.base_ge j hj
    refine ⟨(Nat.le_add_right _ _).trans hbase, ?_⟩
    have hcur := hinv.cur
    have hwpos := hinv.wpos
    rcases Nat.lt_or_eq_of_le hj with hlt | rfl
    · have hend := hinv.end_le hlt (Nat.le_refl _)
      omega
    · omega
  · rcases hinv.get minBufSize with ⟨got, r', hget, -, hfits⟩
    exact ⟨got, r', hget, hfits⟩

/-- In every run of calls that fit, from the first get of a new buffer on, the state is sound and
every further call that fits has a defined outcome. -/
theorem reach_sound {buf minBlockSize minBufSize : Nat} {mem : List Byte} {keepTail : Bool}
    {r0 start : RBuf} {got : Nat × Nat} (hbuf : 2 ^ 12 ≤ buf) (haddr : buf + mem.length < 2 ^ 64)
    (hmin : minBlockSize ≤ mem.length) (halloc : alloc buf mem minBlockSize keepTail = some r0)
    (hget : wbufGet r0 minBufSize = some (some got, start)) (hreach : Reach start r) :
    Sound r ∧ ∀ op, Fits r op → ∃ r', step r op = some r' := by
  have hinv := hreach.inv (inv_first hbuf haddr hmin halloc hget)
  refine ⟨hinv.sound, fun op hfits => ?_⟩
  rcases hinv.step hfits with ⟨r', hstep, -⟩
  exact ⟨r', hstep⟩

/-- A buffer of eight bytes, before the first get. -/
def small : RBuf :=
  { buf := 4096, mem := List.replicate 8 0, size := 8, wpos := 0, iov := fun _ => ⟨0, 0⟩
    iovCount := 40, iovIndex := 0, iovIndexMax := 0, roundNum := 0, minBlockSize := 1
    frag := false, full := false, keepTail := false }

/-- Four bytes behind an offset of four fill the buffer. -/
theorem reach_sound_small :
    ∃ r, wbufSet (advance small) 4 8 = some (.ok, r) ∧ Sound r := by
  have halloc : alloc 4096 (List.replicate 8 0) 1 false = some small := rfl
  have hget : wbufGet small 1 = some (some (4096, 8), advance small) :=
    wbufGet_advance (by decide) (by decide) (by decide) (by decide)
  have hfits : Fits (advance small) (.set 4 8) := fun _ => by decide
  have hset : ∃ r, wbufSet (advance small) 4 8 = some (.ok, r) := ⟨_, rfl⟩
  rcases hset with ⟨r, hset⟩
  have hstep : step (advance small) (.set 4 8) = some r := by
    show (wbufSet (advance small) 4 8).map Prod.snd = some r
    rw [hset]
    rfl
  exact ⟨r, hset, (reach_sound (by decide) (by decide) (by decide) halloc hget
    (.step _ .refl hfits hstep)).1⟩

/-- Eight bytes behind an offset of four are accepted: the write position leaves the buffer, and the
next get returns almost the whole address space. -/
theorem wbufSet_not_sound :
    alloc 4096 (List.replicate 8 0) 1 false = some small ∧
    wbufGet small 1 = some (some (4096, 8), advance small) ∧
    ∃ r, wbufSet (advance small) 4 12 = some (.ok, r) ∧ r.wpos = 12 ∧ ¬Sound r ∧
      (wbufGet r 1).map Prod.fst = some (some (4108, 2 ^ 64 - 4)) := by
  refine ⟨rfl, wbufGet_advance (by decide) (by decide) (by decide) (by decide), _, rfl, rfl,
    fun hsound => ?_, rfl⟩
  exact absurd hsound.wpos (by decide)

end RingBuf
