import Liblcb.Utils.RingBufRead

/-!
# Size accounting of the ring buffer

`r_buf_data_avail_size` against the sizes of the committed blocks, over every run of
`r_buf_wbuf_get` and `r_buf_wbuf_set2`, and `r_buf_rpos_inc`, which moves a position over them.
-/

namespace RingBuf

open Mem Buffer

variable {r r' : RBuf} {rpos p : RPos}

/-! ## The functions -/

/-- What `r_buf_data_avail_size` computes behind the check: with `RBUF_F_FRAG` from the entries,
without it from the pointers. -/
def availSize (r : RBuf) (frag : Bool) (rpos : RPos) : Option Nat :=
  if rpos.roundNum = r.roundNum then
    if rpos.iovIndex = r.iovIndex + 1 then some 0
    else if frag then do
      let iov ← r.entries rpos.iovIndex (1 + r.iovIndex - rpos.iovIndex)
      some (sub (calcSize iov) rpos.iovOff)
    else do
      let first ← r.entry rpos.iovIndex
      some (sub (sub r.wpos (sub first.base r.buf)) rpos.iovOff)
  else if frag then do
    let old ← r.entries rpos.iovIndex (1 + r.iovIndexMax - rpos.iovIndex)
    let cur ← r.entries 0 (1 + r.iovIndex)
    some (sub ((calcSize old + calcSize cur) % 2 ^ 64) rpos.iovOff)
  else do
    let last ← r.entry r.iovIndexMax
    let first ← r.entry rpos.iovIndex
    some (sub ((sub ((last.base + last.len) % 2 ^ 64) first.base + r.wpos) % 2 ^ 64) rpos.iovOff)

/-- `r_buf_data_avail_size`: the size, the corrected position and the dropped size. -/
def dataAvailSize (r : RBuf) (rpos : RPos) : Option (Nat × RPos × Nat) := do
  let (ok, rpos, dropSize) ← rposCheck r rpos
  if ok = false then some (0, rpos, dropSize)
  else
    let ret ← availSize r r.frag rpos
    some (ret, rpos, 0)

/-- `r_buf_rpos_index_inc`: the next entry, or nothing behind the last one. -/
def rposIndexInc (r : RBuf) (rpos : RPos) : Option RPos :=
  if rpos.roundNum = r.roundNum then
    if r.iovIndex < rpos.iovIndex then none
    else some { rpos with iovIndex := rpos.iovIndex + 1 }
  else if r.iovIndexMax < rpos.iovIndex + 1 then
    some { rpos with iovIndex := 0, roundNum := r.roundNum }
  else some { rpos with iovIndex := rpos.iovIndex + 1 }

def entriesAhead (r : RBuf) (rpos : RPos) : Nat :=
  if rpos.roundNum = r.roundNum then r.iovIndex + 1 - rpos.iovIndex
  else r.iovIndexMax + 1 - rpos.iovIndex + (r.iovIndex + 2)

theorem entriesAhead_lt (h : rposIndexInc r rpos = some p) :
    entriesAhead r p < entriesAhead r rpos := by
  unfold rposIndexInc at h
  by_cases hround : rpos.roundNum = r.roundNum
  · rw [if_pos hround] at h
    by_cases hend : r.iovIndex < rpos.iovIndex
    · rw [if_pos hend] at h
      exact absurd h nofun
    · rw [if_neg hend, Option.some.injEq] at h
      rw [← h]
      unfold entriesAhead
      rw [if_pos hround, if_pos hround]
      show r.iovIndex + 1 - (rpos.iovIndex + 1) < _
      omega
  · rw [if_neg hround] at h
    by_cases hmax : r.iovIndexMax < rpos.iovIndex + 1
    · rw [if_pos hmax, Option.some.injEq] at h
      rw [← h]
      unfold entriesAhead
      rw [if_pos rfl, if_neg hround]
      show r.iovIndex + 1 - 0 < _
      omega
    · rw [if_neg hmax, Option.some.injEq] at h
      rw [← h]
      unfold entriesAhead
      rw [if_neg hround, if_neg hround]
      show r.iovIndexMax + 1 - (rpos.iovIndex + 1) + _ < _
      omega

/-- The loop of `r_buf_rpos_inc`. -/
def rposIncLoop (r : RBuf) (rpos : RPos) (dataSize : Nat) : Option RPos :=
  if dataSize = 0 then some rpos
  else
    match r.entry rpos.iovIndex with
    | none => none
    | some e =>
      if dataSize < e.len then some { rpos with iovOff := dataSize }
      else
        match _hinc : rposIndexInc r rpos with
        -- "this situation is BUG and must never happen"
        | none => some rpos
        | some next => rposIncLoop r next (dataSize - e.len)
termination_by entriesAhead r rpos
decreasing_by exact entriesAhead_lt (by assumption)

def rposInc (r : RBuf) (rpos : RPos) (dataSize : Nat) : Option RPos :=
  if dataSize = 0 then some rpos
  else if rpos.iovOff = 0 then rposIncLoop r rpos dataSize
  else do
    let e ← r.entry rpos.iovIndex
    let rest := sub e.len rpos.iovOff
    if rest ≤ dataSize then
      let rpos := { rpos with iovOff := 0 }
      match rposIndexInc r rpos with
      | none => some rpos
      | some next => rposIncLoop r next (dataSize - rest)
    else some { rpos with iovOff := (rpos.iovOff + dataSize) % 2 ^ 64 }

/-! ## Runs of the writer -/

/-- The buffer, and the sizes of the blocks committed so far, round by round. -/
structure Ledger where
  r : RBuf
  past : List (List Nat)
  cur : List Nat

/-- What the writer calls. -/
inductive Call where
  | get (minBufSize : Nat)
  | set2 (buf bufSize : Nat)

namespace Ledger

/-- A call of the writer: a commit that is accepted is booked. -/
def step (s : Ledger) : Call → Option Ledger
  | .get minBufSize => do
    let (_, r) ← wbufGet s.r minBufSize
    if r.roundNum = s.r.roundNum then some { s with r }
    else some { r, past := s.past ++ [s.cur], cur := [] }
  | .set2 buf bufSize => do
    let (ret, r) ← wbufSet2 s.r buf bufSize
    some { s with r, cur := if ret = .ok then s.cur ++ [bufSize] else s.cur }

/-- The end of a block is an address. -/
def Fits : Call → Prop
  | .get _ => True
  | .set2 buf bufSize => buf + bufSize < 2 ^ 64

/-- The states after calls of the writer. -/
inductive Reach (start : Ledger) : Ledger → Prop where
  | refl : Reach start start
  | step {s s' : Ledger} (call : Call) (hreach : Reach start s) (hfits : Fits call)
      (hstep : s.step call = some s') : Reach start s'

/-- The writer with its first room and nothing committed. -/
def first (r : RBuf) : Ledger := ⟨r, [], []⟩

/-- The round before the current one. -/
def old (s : Ledger) : List Nat := s.past.getLastD []

/-- The sizes of the blocks committed at a position and after it. -/
def after (s : Ledger) (rpos : RPos) : List Nat :=
  if rpos.roundNum = s.r.roundNum then s.cur.drop rpos.iovIndex
  else s.old.drop rpos.iovIndex ++ s.cur

/-- The size of the block at a position. -/
def sizeAt (s : Ledger) (rpos : RPos) : Nat :=
  (if rpos.roundNum = s.r.roundNum then s.cur else s.old).getD rpos.iovIndex 0

/-- How many bytes were committed after a position. -/
def bytesAfter (s : Ledger) (rpos : RPos) : Nat := (s.after rpos).sum - rpos.iovOff

end Ledger

/-! ## The entries and the sizes -/

theorem sum_lens_eq (iov : Nat → IoVec) (i n : Nat)
    (hchain : ∀ j, i ≤ j → j < i + n → (iov j).base + (iov j).len = (iov (j + 1)).base) :
    (iov i).base + (((List.range (n + 1)).map fun k => iov (i + k)).map IoVec.len).sum =
      (iov (i + n)).base + (iov (i + n)).len := by
  induction n with
  | zero => simp
  | succ n ih =>
    have hprev := ih fun j hj hlt => hchain j hj (by omega)
    have hnext := hchain (i + n) (Nat.le_add_right _ _) (by omega)
    rw [List.range_succ, List.map_append, List.map_append, List.sum_append, List.map_singleton,
      List.map_singleton, List.sum_singleton]
    rw [Nat.add_assoc i] at hnext
    omega

/-- How the entries and the sizes of the committed blocks belong together.  Of the previous round,
the entries above the current index are still there.  As long as the flag is clear there are no
gaps. -/
structure Booked (r : RBuf) (old cur : List Nat) : Prop where
  inv : Inv r
  addr : r.buf + r.size < 2 ^ 63
  entry : r.iov r.iovIndex = ⟨r.buf + r.wpos, 0⟩
  index : r.iovIndex = cur.length
  maxIndex : r.iovIndexMax + 1 = max 1 (max old.length cur.length)
  sizes : ∀ j size, cur[j]? = some size → (r.iov j).len = size
  olds : ∀ j size, cur.length < j → old[j]? = some size → (r.iov j).len = size ∧ Inside r (r.iov j)
  oldChain : ∀ j, cur.length < j → j + 1 < old.length →
    (r.iov j).base + (r.iov j).len ≤ (r.iov (j + 1)).base
  head : r.frag = false → (r.iov 0).base = r.buf
  joined : r.frag = false → ∀ j < cur.length, (r.iov j).base + (r.iov j).len = (r.iov (j + 1)).base
  oldJoined : r.frag = false → ∀ j, cur.length < j → j + 1 < old.length →
    (r.iov j).base + (r.iov j).len = (r.iov (j + 1)).base

section Booked

variable {old cur : List Nat} (hbooked : Booked r old cur)
include hbooked

theorem Booked.empty : (r.iov r.iovIndex).len = 0 := by rw [hbooked.entry]

theorem Booked.advance_eq : advance r = r := by
  have hnext : nextIndex r = r.iovIndex := if_pos hbooked.empty
  unfold advance
  rw [hnext, ← hbooked.entry, Function.update_eq_self]

theorem Booked.rewind (hwpos : r.wpos ≠ 0) : Booked (rewind r) cur [] := by
  have hinv := hbooked.inv
  have hindex := hbooked.index
  have hpos := hinv.nextIndex_pos hwpos
  have hnext : nextIndex r = r.iovIndex := if_pos hbooked.empty
  have hiov : ∀ j, 0 < j → (RingBuf.rewind r).iov j = r.iov j := by
    intro j hj
    unfold RingBuf.rewind rewindIov
    rw [if_pos hbooked.empty]
    exact Function.update_of_ne (Nat.ne_of_gt hj) _ _
  refine ⟨hinv.rewind, hbooked.addr, rewind_iov_zero r, rfl, ?_, nofun, fun j size hj hsize => ?_,
    fun j hj hlt => ?_, fun _ => ?_, nofun, fun hfrag j hj hlt => ?_⟩
  · show nextIndex r - 1 + 1 = max 1 (max cur.length 0)
    omega
  · have hlt : j < cur.length := (List.getElem?_eq_some_iff.mp hsize).1
    have hbase := hinv.base_ge j (by omega)
    have hend := hinv.end_le_wpos (j := j) (by omega)
    have hle := hinv.wpos
    rw [hiov j hj]
    exact ⟨hbooked.sizes j size hsize,
      ⟨(Nat.le_add_right _ _).trans hbase, by show _ ≤ r.buf + r.size; omega⟩⟩
  · rw [hiov j hj, hiov (j + 1) (Nat.succ_pos j)]
    exact hinv.chain j (by omega)
  · rw [rewind_iov_zero]
    rfl
  · rw [hiov j hj, hiov (j + 1) (Nat.succ_pos j)]
    exact hbooked.joined hfrag j (by omega)

/-- A commit. -/
theorem Booked.commit2 {buf bufSize : Nat} (hmin : r.minBlockSize ≤ bufSize)
    (hbase : (r.iov r.iovIndex).base ≤ buf) (hend : buf + bufSize ≤ r.buf + r.size) :
    Booked (commit2 r buf bufSize) old (cur ++ [bufSize]) := by
  have hinv := hbooked.inv
  have hpos := hinv.min_pos
  have hhead := hinv.base_ge r.iovIndex (Nat.le_refl _)
  have hindex := hbooked.index
  have hmax := hbooked.maxIndex
  have hlen : (⟨buf, bufSize⟩ : IoVec).len ≠ 0 := by
    show bufSize ≠ 0
    omega
  have hnext := nextIndex_commit (r := r) hlen (buf + bufSize - r.buf)
    (r.frag || buf ≠ (r.iov r.iovIndex).base)
  have hself : (RingBuf.commit2 r buf bufSize).iov r.iovIndex = ⟨buf, bufSize⟩ := by
    unfold RingBuf.commit2
    rw [advance_iov_of_lt (by rw [hnext]; exact Nat.lt_succ_self _), commit_iov_self]
  have hother : ∀ j, j ≠ r.iovIndex → j ≠ r.iovIndex + 1 →
      (RingBuf.commit2 r buf bufSize).iov j = r.iov j := by
    intro j hj hj'
    unfold RingBuf.commit2 RingBuf.advance
    rw [hnext]
    show Function.update _ _ _ j = _
    rw [Function.update_of_ne hj', commit_iov_of_ne hj]
  have hlast : (RingBuf.commit2 r buf bufSize).iov (r.iovIndex + 1) = ⟨buf + bufSize, 0⟩ := by
    unfold RingBuf.commit2 RingBuf.advance
    rw [hnext]
    show Function.update _ _ _ _ = _
    rw [Function.update_self]
    show (⟨r.buf + (buf + bufSize - r.buf), 0⟩ : IoVec) = _
    rw [show r.buf + (buf + bufSize - r.buf) = buf + bufSize by omega]
  -- the flag stays clear only if the block starts where the last one ends
  have hfrag : (RingBuf.commit2 r buf bufSize).frag = false →
      r.frag = false ∧ buf = (r.iov r.iovIndex).base := by
    intro h
    have h' : (r.frag || decide (buf ≠ (r.iov r.iovIndex).base)) = false := h
    simpa using h'
  have hlength : (cur ++ [bufSize]).length = r.iovIndex + 1 := by
    rw [List.length_append, List.length_singleton, hindex]
  rw [hindex] at hself hother hlast
  refine ⟨hinv.commit2 hmin hbase hend, hbooked.addr, ?_, hnext.trans hlength.symm, ?_,
    fun j size hsize => ?_, fun j size hj hsize => ?_, fun j hj hlt => ?_, fun h => ?_,
    fun h j hj => ?_, fun h j hj hlt => ?_⟩
  · exact advance_iov_self _
  · show max r.iovIndexMax r.iovIndex + 1 = max 1 (max old.length (cur ++ [bufSize]).length)
    omega
  · by_cases hj : j < cur.length
    · rw [List.getElem?_append_left hj] at hsize
      rw [hother j (by omega) (by omega)]
      exact hbooked.sizes j size hsize
    · have hlt := (List.getElem?_eq_some_iff.mp hsize).1
      have hat : j = cur.length := by omega
      rw [hat, List.getElem?_append_right (Nat.le_refl _), Nat.sub_self] at hsize
      rw [hat, hself]
      exact Option.some.inj hsize
  · rw [hother j (by omega) (by omega)]
    rcases hbooked.olds j size (by omega) hsize with ⟨hlen', hinside⟩
    exact ⟨hlen', hinside.ge, hinside.le⟩
  · rw [hother j (by omega) (by omega), hother (j + 1) (by omega) (by omega)]
    exact hbooked.oldChain j (by omega) hlt
  · rcases hfrag h with ⟨hclear, hstart⟩
    by_cases hzero : cur.length = 0
    · rw [hzero] at hself
      rw [hindex, hzero, hbooked.head hclear] at hstart
      rw [hself]
      exact hstart
    · rw [hother 0 (by omega) (by omega)]
      exact hbooked.head hclear
  · rcases hfrag h with ⟨hclear, hstart⟩
    rcases Nat.lt_trichotomy (j + 1) cur.length with hlt | heq | hgt
    · rw [hother j (by omega) (by omega), hother (j + 1) (by omega) (by omega)]
      exact hbooked.joined hclear j (by omega)
    · have hjoined := hbooked.joined hclear j (by omega)
      rw [hother j (by omega) (by omega), heq, hself, hjoined, heq, ← hindex]
      exact hstart.symm
    · have hat : j = cur.length := by omega
      rw [hat, hself, hlast]
  · rw [hother j (by omega) (by omega), hother (j + 1) (by omega) (by omega)]
    exact hbooked.oldJoined (hfrag h).1 j (by omega) hlt

theorem Booked.lens_current {i : Nat} (hi : i ≤ r.iovIndex) :
    ((List.range (r.iovIndex - i + 1)).map fun k => r.iov (i + k)).map IoVec.len =
      cur.drop i ++ [0] := by
  have hindex := hbooked.index
  have hdrop : (cur.drop i).length = r.iovIndex - i := by
    rw [List.length_drop, hindex]
  apply List.ext_getElem?
  intro k
  rw [List.map_map, List.getElem?_map]
  rcases Nat.lt_trichotomy k (r.iovIndex - i) with hlt | heq | hgt
  · have hsize : (cur.drop i)[k]? = some ((cur.drop i)[k]) := List.getElem?_eq_getElem (by omega)
    rw [List.getElem?_range (by omega), List.getElem?_append_left (by omega), hsize]
    rw [List.getElem?_drop] at hsize
    exact congrArg some (hbooked.sizes (i + k) _ hsize)
  · have hlast : i + k = r.iovIndex := by omega
    rw [List.getElem?_range (by omega), List.getElem?_append_right (by omega), hdrop, heq,
      Nat.sub_self]
    show some (r.iov (i + (r.iovIndex - i))).len = some 0
    rw [← heq, hlast, hbooked.empty]
  · rw [List.getElem?_eq_none (by rw [List.length_range]; omega), List.getElem?_eq_none]
    · rfl
    · rw [List.length_append, List.length_singleton]
      omega

theorem Booked.lens_old {i : Nat} (hi : r.iovIndex < i) (hmax : i ≤ r.iovIndexMax) :
    ((List.range (r.iovIndexMax - i + 1)).map fun k => r.iov (i + k)).map IoVec.len =
      old.drop i := by
  have hindex := hbooked.index
  have hlen := hbooked.maxIndex
  have hdrop : (old.drop i).length = r.iovIndexMax - i + 1 := by
    rw [List.length_drop]
    omega
  apply List.ext_getElem?
  intro k
  rw [List.map_map, List.getElem?_map]
  by_cases hk : k < r.iovIndexMax - i + 1
  · have hsize : (old.drop i)[k]? = some ((old.drop i)[k]) := List.getElem?_eq_getElem (by omega)
    rw [List.getElem?_range hk, hsize]
    rw [List.getElem?_drop] at hsize
    exact congrArg some (hbooked.olds (i + k) _ (by omega) hsize).1
  · rw [List.getElem?_eq_none (by rw [List.length_range]; omega), List.getElem?_eq_none (by omega)]
    rfl

theorem Booked.sum_current {i : Nat} (hi : i ≤ r.iovIndex) :
    (r.iov i).base + (cur.drop i).sum ≤ r.buf + r.wpos := by
  have hindex := hbooked.index
  have hsum := hbooked.inv.sum_le i (r.iovIndex - i) (by omega)
  rw [hbooked.lens_current hi, Nat.add_sub_cancel' hi, hbooked.entry, List.sum_append] at hsum
  exact hsum

theorem Booked.sum_current_eq (hfrag : r.frag = false) {i : Nat} (hi : i ≤ r.iovIndex) :
    (r.iov i).base + (cur.drop i).sum = r.buf + r.wpos := by
  have hindex := hbooked.index
  have hsum := sum_lens_eq r.iov i (r.iovIndex - i) fun j _ hlt => hbooked.joined hfrag j (by omega)
  rw [hbooked.lens_current hi, Nat.add_sub_cancel' hi, hbooked.entry, List.sum_append] at hsum
  exact hsum

theorem Booked.sum_old {i : Nat} (hi : r.iovIndex < i) (hmax : i ≤ r.iovIndexMax) :
    (r.iov i).base + (old.drop i).sum ≤
      (r.iov r.iovIndexMax).base + (r.iov r.iovIndexMax).len := by
  have hindex := hbooked.index
  have hlen := hbooked.maxIndex
  have hsum := sum_lens_le r.iov i (r.iovIndexMax - i) fun j _ hlt =>
    hbooked.oldChain j (by omega) (by omega)
  rw [hbooked.lens_old hi hmax, Nat.add_sub_cancel' hmax] at hsum
  exact hsum

theorem Booked.sum_old_eq (hfrag : r.frag = false) {i : Nat} (hi : r.iovIndex < i)
    (hmax : i ≤ r.iovIndexMax) :
    (r.iov i).base + (old.drop i).sum =
      (r.iov r.iovIndexMax).base + (r.iov r.iovIndexMax).len := by
  have hindex := hbooked.index
  have hlen := hbooked.maxIndex
  have hsum := sum_lens_eq r.iov i (r.iovIndexMax - i) fun j _ hlt =>
    hbooked.oldJoined hfrag j (by omega) (by omega)
  rw [hbooked.lens_old hi hmax, Nat.add_sub_cancel' hmax] at hsum
  exact hsum

theorem Booked.inside_old {i : Nat} (hi : r.iovIndex < i) (hmax : i ≤ r.iovIndexMax) :
    Inside r (r.iov i) := by
  have hindex := hbooked.index
  have hlen := hbooked.maxIndex
  have hlt : i < old.length := by omega
  exact (hbooked.olds i _ (by omega) (List.getElem?_eq_getElem hlt)).2

end Booked

/-! ## The positions that pass the check -/

/-- A position that the check leaves as it is. -/
structure Valid (r : RBuf) (rpos : RPos) : Prop where
  index : rpos.iovIndex < r.iovCount
  off : rpos.iovOff ≤ (r.iov rpos.iovIndex).len
  round : rpos.roundNum = r.roundNum ∧ rpos.iovIndex ≤ r.iovIndex + 1 ∨
    rpos.roundNum ≠ r.roundNum ∧ (rpos.roundNum + 1) % 2 ^ 64 = r.roundNum ∧
      r.iovIndex < rpos.iovIndex ∧ rpos.iovIndex ≤ r.iovIndexMax

theorem Valid.check (hvalid : Valid r rpos) : rposCheck r rpos = some (true, rpos, 0) := by
  rw [rposCheck_eq hvalid.index, fixOff_eq hvalid.off]
  rcases hvalid.round with ⟨hround, hle⟩ | ⟨hround, hprev, hgt, hle⟩
  · rw [if_pos hround, if_pos hle]
  · rw [if_neg hround, if_pos hprev, if_neg (Nat.not_lt.mpr hle), if_pos hgt]

/-- What the check makes of a position it lets through. -/
theorem rposCheck_true (hcount : 0 < r.iovCount) {dropSize : Nat}
    (hcheck : rposCheck r rpos = some (true, p, dropSize)) :
    Valid r p ∧
      (p = fixOff r rpos ∨
        rpos.roundNum ≠ r.roundNum ∧ r.iovIndexMax < rpos.iovIndex ∧ p = ⟨0, 0, r.roundNum⟩) := by
  have hindex : rpos.iovIndex < r.iovCount := by
    by_contra hout
    have hnone : r.entry rpos.iovIndex = none := if_neg hout
    unfold rposCheck at hcheck
    rw [hnone] at hcheck
    exact absurd hcheck nofun
  -- a position that stays where it is may still get a smaller offset
  have hfixed : fixOff r rpos = p → (rpos.roundNum = r.roundNum ∧ rpos.iovIndex ≤ r.iovIndex + 1 ∨
      rpos.roundNum ≠ r.roundNum ∧ (rpos.roundNum + 1) % 2 ^ 64 = r.roundNum ∧
        r.iovIndex < rpos.iovIndex ∧ rpos.iovIndex ≤ r.iovIndexMax) → Valid r p := by
    intro hp hround
    have hoff := fixOff_le r rpos
    rw [← fixOff_index r rpos] at hindex hround hoff
    rw [← fixOff_round r rpos] at hround
    rw [hp] at hindex hround hoff
    exact ⟨hindex, hoff, hround⟩
  rw [rposCheck_eq hindex] at hcheck
  by_cases hround : rpos.roundNum = r.roundNum
  · rw [if_pos hround] at hcheck
    split at hcheck
    case isTrue hle =>
      rw [Option.some.injEq, Prod.mk.injEq, Prod.mk.injEq] at hcheck
      exact ⟨hfixed hcheck.2.1 (.inl ⟨hround, hle⟩), .inl hcheck.2.1.symm⟩
    case isFalse => exact absurd hcheck (by simp)
  · rw [if_neg hround] at hcheck
    split at hcheck
    case isFalse => exact absurd hcheck (by simp)
    case isTrue hprev =>
      split at hcheck
      case isTrue hmax =>
        rw [Option.some.injEq, Prod.mk.injEq, Prod.mk.injEq] at hcheck
        rw [← hcheck.2.1]
        exact ⟨⟨hcount, Nat.zero_le _, .inl ⟨rfl, Nat.zero_le _⟩⟩, .inr ⟨hround, hmax, rfl⟩⟩
      case isFalse hmax =>
        split at hcheck
        case isTrue hgt =>
          rw [Option.some.injEq, Prod.mk.injEq, Prod.mk.injEq] at hcheck
          exact ⟨hfixed hcheck.2.1 (.inr ⟨hround, hprev, hgt, Nat.le_of_not_lt hmax⟩),
            .inl hcheck.2.1.symm⟩
        case isFalse =>
          cases hlost : r.entries rpos.iovIndex (1 + r.iovIndex - rpos.iovIndex) with
          | none =>
            rw [hlost] at hcheck
            exact absurd hcheck nofun
          | some lost =>
            rw [hlost] at hcheck
            exact absurd hcheck (by simp)

/-! ## The sizes -/

namespace Ledger

variable {s : Ledger}

theorem after_current (hround : rpos.roundNum = s.r.roundNum) :
    s.after rpos = s.cur.drop rpos.iovIndex := if_pos hround

theorem after_previous (hround : rpos.roundNum ≠ s.r.roundNum) :
    s.after rpos = s.old.drop rpos.iovIndex ++ s.cur := if_neg hround

/-- The entries and the sizes belong together. -/
def Ok (s : Ledger) : Prop := Booked s.r s.old s.cur

variable (hok : s.Ok)
include hok

theorem availSize_current (hround : rpos.roundNum = s.r.roundNum)
    (hle : rpos.iovIndex ≤ s.r.iovIndex) (hoff : rpos.iovOff ≤ (s.cur.drop rpos.iovIndex).sum)
    {frag : Bool} (hfrag : frag = false → s.r.frag = false) :
    availSize s.r frag rpos = some ((s.cur.drop rpos.iovIndex).sum - rpos.iovOff) := by
  have hinv := hok.inv
  have haddr := hok.addr
  have hcount := hinv.index_lt
  have hwpos := hinv.wpos
  have hbase := hinv.base_ge rpos.iovIndex hle
  have hsum := hok.sum_current hle
  have hsub : sub (s.cur.drop rpos.iovIndex).sum rpos.iovOff =
      (s.cur.drop rpos.iovIndex).sum - rpos.iovOff := sub_of_le (by omega) hoff
  unfold availSize
  rw [if_pos hround, if_neg (Nat.ne_of_lt (Nat.lt_succ_of_le hle))]
  cases frag with
  | true =>
    have hn : 1 + s.r.iovIndex - rpos.iovIndex = s.r.iovIndex - rpos.iovIndex + 1 := by omega
    have hentries : s.r.entries rpos.iovIndex (1 + s.r.iovIndex - rpos.iovIndex) =
        some ((List.range (s.r.iovIndex - rpos.iovIndex + 1)).map fun k =>
          s.r.iov (rpos.iovIndex + k)) := by
      unfold RBuf.entries
      rw [if_pos (by omega), hn]
    rw [if_pos rfl, hentries, Option.bind_eq_bind, Option.bind_some, calcSize_eq,
      hok.lens_current hle, List.sum_append, List.sum_singleton, Nat.add_zero,
      Nat.mod_eq_of_lt (by omega), hsub]
  | false =>
    have heq := hok.sum_current_eq (hfrag rfl) hle
    have hfirst : sub (s.r.iov rpos.iovIndex).base s.r.buf =
        (s.r.iov rpos.iovIndex).base - s.r.buf := sub_of_le (by omega) (by omega)
    have hdiff : sub s.r.wpos ((s.r.iov rpos.iovIndex).base - s.r.buf) =
        (s.cur.drop rpos.iovIndex).sum := by
      rw [sub_of_le (by omega) (by omega)]
      omega
    rw [if_neg Bool.false_ne_true, entry_of_lt (by omega), Option.bind_eq_bind, Option.bind_some,
      hfirst, hdiff, hsub]

/-- The size in the previous round. -/
theorem availSize_previous (hround : rpos.roundNum ≠ s.r.roundNum)
    (hgt : s.r.iovIndex < rpos.iovIndex) (hle : rpos.iovIndex ≤ s.r.iovIndexMax)
    (hoff : rpos.iovOff ≤ (s.old.drop rpos.iovIndex ++ s.cur).sum)
    {frag : Bool} (hfrag : frag = false → s.r.frag = false) :
    availSize s.r frag rpos =
      some ((s.old.drop rpos.iovIndex ++ s.cur).sum - rpos.iovOff) := by
  have hinv := hok.inv
  have haddr := hok.addr
  have hcount := hinv.index_lt
  have hwpos := hinv.wpos
  have hmax := hinv.max
  have hlen := hinv.count
  have hhead := hinv.head
  have hfirst := (hok.inside_old hgt hle).ge
  have hlast := (hok.inside_old (by omega) (Nat.le_refl s.r.iovIndexMax)).le
  have hold := hok.sum_old hgt hle
  have hcur := hok.sum_current (Nat.zero_le _)
  rw [List.drop_zero] at hcur
  rw [List.sum_append] at hoff ⊢
  have hsub : sub ((s.old.drop rpos.iovIndex).sum + s.cur.sum) rpos.iovOff =
      (s.old.drop rpos.iovIndex).sum + s.cur.sum - rpos.iovOff := sub_of_le (by omega) hoff
  unfold availSize
  rw [if_neg hround]
  cases frag with
  | true =>
    -- the blocks are added up one by one
    have hn : 1 + s.r.iovIndexMax - rpos.iovIndex = s.r.iovIndexMax - rpos.iovIndex + 1 := by
      omega
    have hentries : s.r.entries rpos.iovIndex (1 + s.r.iovIndexMax - rpos.iovIndex) =
        some ((List.range (s.r.iovIndexMax - rpos.iovIndex + 1)).map fun k =>
          s.r.iov (rpos.iovIndex + k)) := by
      unfold RBuf.entries
      rw [if_pos (by omega), hn]
    have hentries0 : s.r.entries 0 (1 + s.r.iovIndex) =
        some ((List.range (s.r.iovIndex - 0 + 1)).map fun k => s.r.iov (0 + k)) := by
      unfold RBuf.entries
      rw [if_pos (by omega), Nat.add_comm 1]
      rfl
    rw [if_pos rfl, hentries, hentries0]
    simp only [Option.bind_eq_bind, Option.bind_some]
    rw [calcSize_eq, calcSize_eq, hok.lens_old hgt hle, hok.lens_current (Nat.zero_le _),
      List.drop_zero, List.sum_append, List.sum_singleton, Nat.add_zero,
      Nat.mod_eq_of_lt (by omega : (s.old.drop rpos.iovIndex).sum < 2 ^ 64),
      Nat.mod_eq_of_lt (by omega : s.cur.sum < 2 ^ 64), Nat.mod_eq_of_lt (by omega), hsub]
  | false =>
    -- without gaps the size is the distance of two addresses
    have heq := hok.sum_old_eq (hfrag rfl) hgt hle
    have heqcur := hok.sum_current_eq (hfrag rfl) (Nat.zero_le _)
    rw [List.drop_zero, hok.head (hfrag rfl)] at heqcur
    have hend : ((s.r.iov s.r.iovIndexMax).base + (s.r.iov s.r.iovIndexMax).len) % 2 ^ 64 =
        (s.r.iov s.r.iovIndexMax).base + (s.r.iov s.r.iovIndexMax).len :=
      Nat.mod_eq_of_lt (by omega)
    have hdiff : sub ((s.r.iov s.r.iovIndexMax).base + (s.r.iov s.r.iovIndexMax).len)
        (s.r.iov rpos.iovIndex).base = (s.old.drop rpos.iovIndex).sum := by
      rw [sub_of_le (by omega) (by omega)]
      omega
    have hwrite : s.r.wpos = s.cur.sum := by omega
    rw [if_neg Bool.false_ne_true, entry_of_lt (by omega), entry_of_lt (by omega)]
    simp only [Option.bind_eq_bind, Option.bind_some]
    rw [hend, hdiff, hwrite, Nat.mod_eq_of_lt (by omega), hsub]

/-- The first block after a position is the one it points to, and the rest is after the next
position. -/
theorem after_cons (hvalid : Valid s.r rpos) (hoff : rpos.iovOff = 0) (hne : s.after rpos ≠ []) :
    ∃ next, rposIndexInc s.r rpos = some next ∧ Valid s.r next ∧ next.iovOff = 0 ∧
      s.after rpos = (s.r.iov rpos.iovIndex).len :: s.after next := by
  have hinv := hok.inv
  have hcount := hinv.index_lt
  have hindex := hok.index
  have hmax := hok.maxIndex
  unfold rposIndexInc
  rcases hvalid.round with ⟨hround, -⟩ | ⟨hround, hprev, hgt, hle⟩
  · rw [after_current hround] at hne ⊢
    have hlt : rpos.iovIndex < s.cur.length := by
      by_contra hout
      exact hne (List.drop_eq_nil_of_le (Nat.le_of_not_lt hout))
    rw [if_pos hround, if_neg (by omega)]
    refine ⟨_, rfl, ⟨by show rpos.iovIndex + 1 < _; omega, ?_,
      .inl ⟨hround, by show rpos.iovIndex + 1 ≤ _; omega⟩⟩, hoff, ?_⟩
    · show rpos.iovOff ≤ _
      rw [hoff]
      exact Nat.zero_le _
    · have hnext : s.after { rpos with iovIndex := rpos.iovIndex + 1 } =
          s.cur.drop (rpos.iovIndex + 1) := if_pos hround
      rw [List.drop_eq_getElem_cons hlt, hok.sizes _ _ (List.getElem?_eq_getElem hlt), hnext]
  · rw [after_previous hround]
    have hlt : rpos.iovIndex < s.old.length := by omega
    have hfirst := (hok.olds _ _ (by omega) (List.getElem?_eq_getElem hlt)).1
    rw [if_neg hround, List.drop_eq_getElem_cons hlt, List.cons_append, hfirst]
    by_cases hlast : s.r.iovIndexMax < rpos.iovIndex + 1
    · -- the round ends here
      have hnil : s.old.drop (rpos.iovIndex + 1) = [] := List.drop_eq_nil_of_le (by omega)
      rw [if_pos hlast]
      refine ⟨_, rfl, ⟨Nat.zero_lt_of_lt hcount, ?_, .inl ⟨rfl, Nat.zero_le _⟩⟩, hoff, ?_⟩
      · show rpos.iovOff ≤ _
        rw [hoff]
        exact Nat.zero_le _
      · have hnext : s.after { rpos with iovIndex := 0, roundNum := s.r.roundNum } = s.cur :=
          if_pos rfl
        rw [hnil, hnext]
        rfl
    · rw [if_neg hlast]
      have hle' := hinv.max
      have hlen := hinv.count
      refine ⟨_, rfl, ⟨by show rpos.iovIndex + 1 < _; omega, ?_,
        .inr ⟨hround, hprev, by show _ < rpos.iovIndex + 1; omega, Nat.le_of_not_lt hlast⟩⟩,
        hoff, ?_⟩
      · show rpos.iovOff ≤ _
        rw [hoff]
        exact Nat.zero_le _
      · have hnext : s.after { rpos with iovIndex := rpos.iovIndex + 1 } =
            s.old.drop (rpos.iovIndex + 1) ++ s.cur := if_neg hround
        rw [hnext]

theorem off_le (hvalid : Valid s.r rpos) (hne : s.after rpos ≠ []) :
    rpos.iovOff ≤ (s.r.iov rpos.iovIndex).len ∧
      (s.r.iov rpos.iovIndex).len ≤ (s.after rpos).sum := by
  have hstart : Valid s.r { rpos with iovOff := 0 } := ⟨hvalid.index, Nat.zero_le _, hvalid.round⟩
  rcases after_cons hok hstart rfl hne with ⟨next, -, -, -, hcons⟩
  have hsum : (s.after rpos).sum = (s.r.iov rpos.iovIndex).len + (s.after next).sum :=
    congrArg List.sum hcons
  exact ⟨hvalid.off, by omega⟩

theorem availSize_eq (hvalid : Valid s.r rpos) {frag : Bool}
    (hfrag : frag = false → s.r.frag = false) :
    availSize s.r frag rpos = some (s.bytesAfter rpos) := by
  have hindex := hok.index
  have hoff : s.after rpos ≠ [] → rpos.iovOff ≤ (s.after rpos).sum := fun hne =>
    (off_le hok hvalid hne).1.trans (off_le hok hvalid hne).2
  unfold bytesAfter
  rcases hvalid.round with ⟨hround, hle⟩ | ⟨hround, hprev, hgt, hle⟩
  · rw [after_current hround] at hoff ⊢
    rcases Nat.lt_or_eq_of_le hle with hlt | hend
    · refine availSize_current hok hround (Nat.le_of_lt_succ hlt) ?_ hfrag
      by_cases hne : s.cur.drop rpos.iovIndex = []
      · -- the entry of the next block is empty
        have hlast : rpos.iovIndex = s.r.iovIndex := by
          have hout := List.drop_eq_nil_iff.mp hne
          omega
        have hzero := hvalid.off
        rw [hlast, hok.empty] at hzero
        exact hzero.trans (Nat.zero_le _)
      · exact hoff hne
    · have hnil : s.cur.drop rpos.iovIndex = [] := List.drop_eq_nil_of_le (by omega)
      unfold availSize
      rw [if_pos hround, if_pos hend, hnil, List.sum_nil, Nat.zero_sub]
  · have hne : s.after rpos ≠ [] := by
      have hmax := hok.maxIndex
      rw [after_previous hround, List.drop_eq_getElem_cons (by omega)]
      exact nofun
    rw [after_previous hround] at hoff hne ⊢
    exact availSize_previous hok hround hgt hle (hoff hne) hfrag

theorem dataAvailSize_eq (hvalid : Valid s.r rpos) :
    dataAvailSize s.r rpos = some (s.bytesAfter rpos, rpos, 0) := by
  unfold dataAvailSize
  rw [hvalid.check]
  simp only [Option.bind_eq_bind, Option.bind_some, Bool.true_eq_false, if_false]
  rw [availSize_eq hok hvalid id, Option.bind_some]

theorem bytesAfter_fixed (hvalid : Valid s.r p)
    (hfixed : p = fixOff s.r rpos ∨
      rpos.roundNum ≠ s.r.roundNum ∧ s.r.iovIndexMax < rpos.iovIndex ∧ p = ⟨0, 0, s.r.roundNum⟩)
    (hoff : rpos.iovOff ≤ s.sizeAt rpos) : s.bytesAfter p = s.bytesAfter rpos := by
  have hindex := hok.index
  have hmax := hok.maxIndex
  unfold sizeAt at hoff
  rcases hfixed with hp | ⟨hround, hgt, hp⟩
  · -- the entry has the size of the block
    have hle : rpos.iovOff ≤ (s.r.iov rpos.iovIndex).len := by
      have hround := hvalid.round
      rw [hp, fixOff_round, fixOff_index] at hround
      rcases hround with ⟨hround, -⟩ | ⟨hround, -, hgt, hle⟩
      · rw [if_pos hround] at hoff
        by_cases hlt : rpos.iovIndex < s.cur.length
        · rw [List.getD_eq_getElem _ _ hlt] at hoff
          rw [hok.sizes _ _ (List.getElem?_eq_getElem hlt)]
          exact hoff
        · rw [List.getD_eq_default _ _ (Nat.le_of_not_lt hlt)] at hoff
          exact hoff.trans (Nat.zero_le _)
      · have hlt : rpos.iovIndex < s.old.length := by omega
        rw [if_neg hround, List.getD_eq_getElem _ _ hlt] at hoff
        rw [(hok.olds _ _ (by omega) (List.getElem?_eq_getElem hlt)).1]
        exact hoff
    rw [hp, fixOff_eq hle]
  · have hout : s.old.length ≤ rpos.iovIndex := by omega
    rw [if_neg hround, List.getD_eq_default _ _ hout] at hoff
    unfold bytesAfter
    rw [after_previous hround, List.drop_eq_nil_of_le hout, hp, after_current rfl]
    show (s.cur.drop 0).sum - 0 = ([] ++ s.cur).sum - rpos.iovOff
    rw [Nat.le_zero.mp hoff]
    rfl

/-! ## Moving a position -/

theorem len_le (hvalid : Valid s.r rpos) (hne : s.after rpos ≠ []) :
    (s.r.iov rpos.iovIndex).len ≤ s.r.size := by
  have hinv := hok.inv
  have hindex := hok.index
  have hwpos := hinv.wpos
  rcases hvalid.round with ⟨hround, hle⟩ | ⟨hround, -, hgt, hle⟩
  · rw [after_current hround, ne_eq, List.drop_eq_nil_iff] at hne
    have hbase := hinv.base_ge rpos.iovIndex (by omega)
    have hend := @Inv.end_le _ hinv rpos.iovIndex _ (by omega) (Nat.le_refl _)
    have hlast := hinv.cur
    omega
  · have hinside := hok.inside_old hgt hle
    have hge := hinside.ge
    have hend := hinside.le
    omega

theorem rposIncLoop_eq {dataSize : Nat} (hvalid : Valid s.r rpos) (hoff : rpos.iovOff = 0)
    (hle : dataSize ≤ (s.after rpos).sum) :
    ∃ p, rposIncLoop s.r rpos dataSize = some p ∧ Valid s.r p ∧
      s.bytesAfter p = (s.after rpos).sum - dataSize := by
  -- induction over the entries ahead of the position
  induction hahead : entriesAhead s.r rpos using Nat.strong_induction_on
    generalizing rpos dataSize with
  | _ ahead ih =>
    unfold rposIncLoop
    by_cases hzero : dataSize = 0
    · rw [if_pos hzero]
      refine ⟨rpos, rfl, hvalid, ?_⟩
      unfold bytesAfter
      rw [hoff, hzero]
    · have hne : s.after rpos ≠ [] := by
        intro hnil
        rw [hnil, List.sum_nil] at hle
        exact hzero (Nat.le_zero.mp hle)
      rcases after_cons hok hvalid hoff hne with ⟨next, hinc, hnext, hoff', hcons⟩
      have hsum : (s.after rpos).sum = (s.r.iov rpos.iovIndex).len + (s.after next).sum :=
        congrArg List.sum hcons
      rw [if_neg hzero, entry_of_lt hvalid.index]
      by_cases hpart : dataSize < (s.r.iov rpos.iovIndex).len
      · refine ⟨{ rpos with iovOff := dataSize }, if_pos hpart, ?_, rfl⟩
        exact ⟨hvalid.index, Nat.le_of_lt hpart, hvalid.round⟩
      · have hless : entriesAhead s.r next < ahead := hahead ▸ entriesAhead_lt hinc
        have hrest : dataSize - (s.r.iov rpos.iovIndex).len ≤ (s.after next).sum := by omega
        rcases ih _ hless hnext hoff' hrest rfl with ⟨p, hloop, hp, hbytes⟩
        refine ⟨p, ?_, hp, by omega⟩
        show (if _ then _ else _) = _
        rw [if_neg hpart, hinc]
        exact hloop

/-- A position moves over as many bytes as it is told to. -/
theorem rposInc_eq {dataSize : Nat} (hvalid : Valid s.r rpos)
    (hle : dataSize ≤ s.bytesAfter rpos) :
    ∃ p, rposInc s.r rpos dataSize = some p ∧ Valid s.r p ∧
      s.bytesAfter p = s.bytesAfter rpos - dataSize := by
  have haddr := hok.addr
  unfold rposInc
  by_cases hzero : dataSize = 0
  · rw [if_pos hzero, hzero]
    exact ⟨rpos, rfl, hvalid, rfl⟩
  · rw [if_neg hzero]
    by_cases hoff : rpos.iovOff = 0
    · rw [if_pos hoff]
      unfold bytesAfter at hle ⊢
      rw [hoff, Nat.sub_zero] at hle ⊢
      exact rposIncLoop_eq hok hvalid hoff hle
    · have hne : s.after rpos ≠ [] := by
        intro hnil
        unfold bytesAfter at hle
        rw [hnil, List.sum_nil] at hle
        omega
      -- the rest of the first block, and then whole ones
      have hstart : Valid s.r { rpos with iovOff := 0 } :=
        ⟨hvalid.index, Nat.zero_le _, hvalid.round⟩
      rcases after_cons hok hstart rfl hne with ⟨next, hinc, hnext, hoff', hcons⟩
      have hsum : (s.after rpos).sum = (s.r.iov rpos.iovIndex).len + (s.after next).sum :=
        congrArg List.sum hcons
      have hfirst := hvalid.off
      have hlen := len_le hok hvalid hne
      have hrest : sub (s.r.iov rpos.iovIndex).len rpos.iovOff =
          (s.r.iov rpos.iovIndex).len - rpos.iovOff := sub_of_le (by omega) hfirst
      unfold bytesAfter at hle ⊢
      rw [if_neg hoff, entry_of_lt hvalid.index, Option.bind_eq_bind, Option.bind_some, hrest]
      by_cases hpart : (s.r.iov rpos.iovIndex).len - rpos.iovOff ≤ dataSize
      · have hleft : dataSize - ((s.r.iov rpos.iovIndex).len - rpos.iovOff) ≤
            (s.after next).sum := by omega
        rw [if_pos hpart]
        simp only [hinc]
        rcases rposIncLoop_eq hok hnext hoff' hleft with ⟨p, hloop, hp, hbytes⟩
        refine ⟨p, hloop, hp, ?_⟩
        unfold bytesAfter at hbytes
        omega
      · have hmod : (rpos.iovOff + dataSize) % 2 ^ 64 = rpos.iovOff + dataSize :=
          Nat.mod_eq_of_lt (by omega)
        rw [if_neg hpart, hmod]
        refine ⟨_, rfl, ⟨hvalid.index, ?_, hvalid.round⟩, ?_⟩
        · show rpos.iovOff + dataSize ≤ (s.r.iov rpos.iovIndex).len
          omega
        · show (s.after rpos).sum - (rpos.iovOff + dataSize) = _
          omega

/-! ## Runs -/

theorem Ok.get {s' : Ledger} {minBufSize : Nat} (hstep : s.step (.get minBufSize) = some s') :
    s'.Ok := by
  have hinv := hok.inv
  unfold step at hstep
  rcases wbufGet_cases hinv minBufSize with ⟨got, hget⟩ | ⟨hrewinds, got, hget⟩ | ⟨got, hget⟩
  · simp only [hget, Option.bind_eq_bind, Option.bind_some, if_true, Option.some.injEq] at hstep
    rw [← hstep]
    exact hok
  · simp only [hget, Option.bind_eq_bind, Option.bind_some, if_neg (rewind_roundNum_ne s.r),
      Option.some.injEq] at hstep
    rw [← hstep]
    have hnew := hok.rewind (hinv.wpos_ne_zero hrewinds)
    unfold Ok old
    rw [List.getLastD_concat]
    exact hnew
  · have hround : (advance s.r).roundNum = s.r.roundNum := rfl
    simp only [hget, Option.bind_eq_bind, Option.bind_some, if_pos hround, Option.some.injEq]
      at hstep
    rw [hok.advance_eq] at hstep
    rw [← hstep]
    exact hok

theorem Ok.set2 {s' : Ledger} {buf bufSize : Nat} (hfits : Fits (.set2 buf bufSize))
    (hstep : s.step (.set2 buf bufSize) = some s') : s'.Ok := by
  have hinv := hok.inv
  unfold step at hstep
  simp only [wbufSet2_eq hinv hfits] at hstep
  split at hstep
  case isTrue =>
    simp only [Option.bind_eq_bind, Option.bind_some, reduceCtorEq, if_false,
      Option.some.injEq] at hstep
    rw [← hstep]
    exact hok
  case isFalse haccepted =>
    rw [not_or, not_or, Nat.not_lt, Nat.not_lt, Nat.not_lt] at haccepted
    simp only [Option.bind_eq_bind, Option.bind_some, if_true, Option.some.injEq] at hstep
    rw [← hstep]
    exact hok.commit2 haccepted.1 haccepted.2.1 haccepted.2.2

theorem Ok.reach {s' : Ledger} (hreach : Reach s s') : s'.Ok := by
  induction hreach with
  | refl => exact hok
  | step call _ hfits hstep ih =>
    cases call with
    | get minBufSize => exact ih.get hstep
    | set2 buf bufSize => exact ih.set2 hfits hstep

end Ledger

section First

variable {buf minBlockSize minBufSize : Nat} {mem : List Byte} {keepTail : Bool} {got : Nat × Nat}
  {r0 start : RBuf}

theorem Ledger.ok_first (hbuf : 2 ^ 12 ≤ buf) (haddr : buf + mem.length < 2 ^ 63)
    (hmin : minBlockSize ≤ mem.length) (halloc : alloc buf mem minBlockSize keepTail = some r0)
    (hget : wbufGet r0 minBufSize = some (some got, start)) : (Ledger.first start).Ok := by
  have haddr' : buf + mem.length < 2 ^ 64 := by omega
  have hinv := inv_first hbuf haddr' hmin halloc hget
  have hstart := wbufGet_first hbuf haddr' hmin halloc hget
  rcases alloc_eq halloc with ⟨-, hr⟩
  have hentry := advance_iov_self r0
  subst hstart
  subst hr
  refine ⟨hinv, haddr, hentry, rfl, rfl, nofun, nofun, nofun, fun _ => ?_, nofun, nofun⟩
  exact congrArg IoVec.base hentry

/-! ## A minimum larger than the buffer -/

/-- The buffer is where it was. -/
structure SameRoom (r r' : RBuf) : Prop where
  buf : r'.buf = r.buf
  size : r'.size = r.size
  minBlockSize : r'.minBlockSize = r.minBlockSize

theorem SameRoom.trans {r'' : RBuf} (h : SameRoom r r') (h' : SameRoom r' r'') : SameRoom r r'' :=
  ⟨h'.buf.trans h.buf, h'.size.trans h.size, h'.minBlockSize.trans h.minBlockSize⟩

theorem setEntry_some {i : Nat} {e : IoVec} (h : r.setEntry i e = some r') :
    r' = { r with iov := Function.update r.iov i e } := by
  unfold RBuf.setEntry at h
  split at h
  · exact (Option.some.inj h).symm
  · exact absurd h nofun

theorem nextIov_same (h : nextIov r = some r') : SameRoom r r' := by
  unfold nextIov at h
  rcases Option.bind_eq_some_iff.mp h with ⟨cur, -, h⟩
  split at h
  · rw [Option.some.injEq] at h
    rw [← h]
    exact ⟨rfl, rfl, rfl⟩
  · rcases Option.bind_eq_some_iff.mp h with ⟨next, -, h⟩
    rw [setEntry_some h]
    exact ⟨rfl, rfl, rfl⟩

theorem nextRound_same {bufSize : Nat} (h : nextRound r bufSize = some r') : SameRoom r r' := by
  unfold nextRound at h
  rcases Option.bind_eq_some_iff.mp h with ⟨moved, hmoved, h⟩
  rcases Option.bind_eq_some_iff.mp h with ⟨first, -, h⟩
  have hsame : SameRoom r moved := by
    unfold moveTail at hmoved
    split at hmoved
    · rw [Option.some.injEq] at hmoved
      rw [← hmoved]
      exact ⟨rfl, rfl, rfl⟩
    · split at hmoved
      · exact absurd hmoved nofun
      · rw [Option.some.injEq] at hmoved
        rw [← hmoved]
        exact ⟨rfl, rfl, rfl⟩
  rw [setEntry_some h]
  exact hsame.trans ⟨rfl, rfl, rfl⟩

theorem startBlock_same (h : startBlock r = some r') :
    SameRoom r r' ∧ r'.buf ≤ (r'.iov r'.iovIndex).base := by
  unfold startBlock at h
  rcases Option.bind_eq_some_iff.mp h with ⟨cur, -, h⟩
  rw [setEntry_some h]
  refine ⟨⟨rfl, rfl, rfl⟩, ?_⟩
  show r.buf ≤ (Function.update r.iov r.iovIndex _ r.iovIndex).base
  rw [Function.update_self]
  exact Nat.le_add_right _ _

theorem wbufGet_same {offer : Option (Nat × Nat)} (h : wbufGet r minBufSize = some (offer, r')) :
    SameRoom r r' ∧ ((offer = none ∧ r' = r) ∨ r'.buf ≤ (r'.iov r'.iovIndex).base) := by
  unfold wbufGet at h
  split at h
  case isTrue =>
    rw [Option.some.injEq, Prod.mk.injEq] at h
    rw [← h.2]
    exact ⟨⟨rfl, rfl, rfl⟩, .inl ⟨h.1.symm, rfl⟩⟩
  case isFalse =>
    rcases Option.bind_eq_some_iff.mp h with ⟨next, hnext, h⟩
    have hsame := nextIov_same hnext
    split at h
    · rcases Option.bind_eq_some_iff.mp h with ⟨round, hround, h⟩
      rcases Option.bind_eq_some_iff.mp h with ⟨block, hblock, h⟩
      rw [Option.some.injEq, Prod.mk.injEq] at h
      rw [← h.2]
      rcases startBlock_same hblock with ⟨hstart, hbase⟩
      exact ⟨(hsame.trans (nextRound_same hround)).trans hstart, .inr hbase⟩
    · rcases Option.bind_eq_some_iff.mp h with ⟨block, hblock, h⟩
      rw [Option.some.injEq, Prod.mk.injEq] at h
      rw [← h.2]
      rcases startBlock_same hblock with ⟨hstart, hbase⟩
      exact ⟨hsame.trans hstart, .inr hbase⟩

namespace Ledger

/-- Nothing is committed, and nothing will be. -/
structure Hopeless (s : Ledger) : Prop where
  small : s.r.size < s.r.minBlockSize
  base : s.r.buf ≤ (s.r.iov s.r.iovIndex).base
  past : s.past.flatten = []
  cur : s.cur = []

theorem Hopeless.step {s s' : Ledger} (hhopeless : Hopeless s) {call : Call} (hfits : Fits call)
    (hstep : s.step call = some s') : Hopeless s' := by
  have hsmall := hhopeless.small
  have hbase := hhopeless.base
  cases call with
  | get minBufSize =>
    unfold Ledger.step at hstep
    rcases Option.bind_eq_some_iff.mp hstep with ⟨⟨offer, r'⟩, hget, hstep⟩
    rcases wbufGet_same hget with ⟨hsame, hoffer⟩
    have hsmall' : r'.size < r'.minBlockSize := by
      rw [hsame.size, hsame.minBlockSize]
      exact hsmall
    have hbase' : r'.buf ≤ (r'.iov r'.iovIndex).base := by
      rcases hoffer with ⟨-, heq⟩ | hle
      · rw [heq]
        exact hbase
      · exact hle
    have hstep' : (if r'.roundNum = s.r.roundNum then some { s with r := r' }
        else some ⟨r', s.past ++ [s.cur], []⟩) = some s' := hstep
    split at hstep'
    · rw [Option.some.injEq] at hstep'
      rw [← hstep']
      exact ⟨hsmall', hbase', hhopeless.past, hhopeless.cur⟩
    · rw [Option.some.injEq] at hstep'
      rw [← hstep']
      refine ⟨hsmall', hbase', ?_, rfl⟩
      rw [List.flatten_append, hhopeless.past, hhopeless.cur]
      rfl
  | set2 buf bufSize =>
    have haddress : (buf + bufSize) % 2 ^ 64 = buf + bufSize := Nat.mod_eq_of_lt hfits
    -- a block is refused by the argument checks, or by the check of the room
    have hrefused : ∀ {ret r'}, wbufSet2 s.r buf bufSize = some (ret, r') →
        ret = .einval ∧ r' = s.r := by
      intro ret r' hset
      unfold wbufSet2 at hset
      split at hset
      · rw [Option.some.injEq, Prod.mk.injEq] at hset
        exact ⟨hset.1.symm, hset.2.symm⟩
      · rcases Option.bind_eq_some_iff.mp hset with ⟨cur, hcur, hset⟩
        have hentry : cur = s.r.iov s.r.iovIndex := by
          unfold RBuf.entry at hcur
          split at hcur
          · exact (Option.some.inj hcur).symm
          · exact absurd hcur nofun
        simp only [haddress, hentry] at hset
        split at hset
        · rw [Option.some.injEq, Prod.mk.injEq] at hset
          exact ⟨hset.1.symm, hset.2.symm⟩
        · rw [if_pos (by omega), Option.some.injEq, Prod.mk.injEq] at hset
          exact ⟨hset.1.symm, hset.2.symm⟩
    unfold Ledger.step at hstep
    rcases Option.bind_eq_some_iff.mp hstep with ⟨⟨ret, r'⟩, hset, hstep⟩
    rcases hrefused hset with ⟨hret, hr⟩
    subst hret
    subst hr
    rw [Option.some.injEq] at hstep
    rw [← hstep]
    exact ⟨hsmall, hbase, hhopeless.past, hhopeless.cur⟩

theorem Hopeless.reach {s s' : Ledger} (hhopeless : Hopeless s) (hreach : Reach s s') :
    Hopeless s' := by
  induction hreach with
  | refl => exact hhopeless
  | step call _ hfits hstep ih => exact ih.step hfits hstep

end Ledger

theorem Ledger.hopeless_first (hmin : mem.length < minBlockSize)
    (halloc : alloc buf mem minBlockSize keepTail = some r0)
    (hget : wbufGet r0 minBufSize = some (some got, start)) : (Ledger.first start).Hopeless := by
  rcases alloc_eq halloc with ⟨-, hr⟩
  rcases wbufGet_same hget with ⟨hsame, ⟨hnone, -⟩ | hbase⟩
  · exact absurd hnone nofun
  · refine ⟨?_, hbase, rfl, rfl⟩
    show start.size < start.minBlockSize
    rw [hsame.size, hsame.minBlockSize, hr]
    exact hmin

/-- In every run of the writer, once a block is committed or if the smallest block fits, the size
reported for a position that passes the check is that of the blocks committed after it, from the
entries as well as from the pointers, and a position that moves on leaves as much less. -/
theorem dataAvailSize_exact (hbuf : 2 ^ 12 ≤ buf) (haddr : buf + mem.length < 2 ^ 63)
    (halloc : alloc buf mem minBlockSize keepTail = some r0)
    (hget : wbufGet r0 minBufSize = some (some got, start)) {s : Ledger}
    (hreach : (Ledger.first start).Reach s)
    (hblock : minBlockSize ≤ mem.length ∨ (s.past ++ [s.cur]).flatten ≠ []) {dropSize : Nat}
    (hcheck : rposCheck s.r rpos = some (true, p, dropSize)) :
    dataAvailSize s.r rpos = some (s.bytesAfter p, p, 0) ∧
      (rpos.iovOff ≤ s.sizeAt rpos → s.bytesAfter p = s.bytesAfter rpos) ∧
      (s.r.frag = false → availSize s.r false p = availSize s.r true p) ∧
      ∀ dataSize ≤ s.bytesAfter p, ∃ p', rposInc s.r p dataSize = some p' ∧
        dataAvailSize s.r p' = some (s.bytesAfter p - dataSize, p', 0) := by
  have hmin : minBlockSize ≤ mem.length := by
    by_contra hsmall
    have hhopeless := (Ledger.hopeless_first (Nat.lt_of_not_le hsmall) halloc hget).reach hreach
    rcases hblock with hle | hne
    · exact hsmall hle
    · apply hne
      rw [List.flatten_append, hhopeless.past, hhopeless.cur]
      rfl
  have hok := (Ledger.ok_first hbuf haddr hmin halloc hget).reach hreach
  rcases rposCheck_true (Nat.zero_lt_of_lt hok.inv.index_lt) hcheck with ⟨hvalid, hfixed⟩
  refine ⟨?_, fun hoff => ?_, fun hfrag => ?_, fun dataSize hle => ?_⟩
  · have havail := Ledger.availSize_eq hok hvalid (id : s.r.frag = false → s.r.frag = false)
    unfold dataAvailSize
    rw [hcheck]
    simp only [Option.bind_eq_bind, Option.bind_some, Bool.true_eq_false, if_false, havail]
  · exact Ledger.bytesAfter_fixed hok hvalid hfixed hoff
  · have hpointers := Ledger.availSize_eq hok hvalid fun _ : false = false => hfrag
    have hentries := Ledger.availSize_eq hok hvalid (nofun : true = false → s.r.frag = false)
    rw [hpointers, hentries]
  · rcases Ledger.rposInc_eq hok hvalid hle with ⟨p', hinc, hvalid', hbytes⟩
    refine ⟨p', hinc, ?_⟩
    rw [← hbytes]
    exact Ledger.dataAvailSize_eq hok hvalid'

end First

def gap : Ledger := ⟨commit2 (commit2 (advance small) 4096 3) 4100 2, [], [3, 2]⟩

/-- A reader one byte into the first block has four bytes to read, and then one. -/
theorem dataAvailSize_exact_gap :
    dataAvailSize gap.r ⟨0, 1, 0⟩ = some (4, ⟨0, 1, 0⟩, 0) ∧
      ∃ p, rposInc gap.r ⟨0, 1, 0⟩ 3 = some p ∧ dataAvailSize gap.r p = some (1, p, 0) := by
  have hget : wbufGet small 1 = some (some (4096, 8), advance small) :=
    wbufGet_advance (by decide) (by decide) (by decide) (by decide)
  have hset : (Ledger.first (advance small)).step (.set2 4096 3) =
      some ⟨commit2 (advance small) 4096 3, [], [3]⟩ := rfl
  have hset' : Ledger.step ⟨commit2 (advance small) 4096 3, [], [3]⟩ (.set2 4100 2) =
      some gap := rfl
  have hcheck : rposCheck gap.r ⟨0, 1, 0⟩ = some (true, ⟨0, 1, 0⟩, 0) := rfl
  have hfits : Ledger.Fits (.set2 4096 3) := by
    show 4096 + 3 < 2 ^ 64
    decide
  have hfits' : Ledger.Fits (.set2 4100 2) := by
    show 4100 + 2 < 2 ^ 64
    decide
  have halloc : alloc 4096 (List.replicate 8 0) 1 false = some small := rfl
  rcases dataAvailSize_exact (by decide) (by decide) halloc hget
    ((Ledger.Reach.refl.step _ hfits hset).step _ hfits' hset') (.inl (by decide)) hcheck with
    ⟨havail, -, -, hinc⟩
  exact ⟨havail, hinc 3 (by decide)⟩

end RingBuf
