import Liblcb.Utils.RingBufInv
import Mathlib.Data.List.GetD

/-!
# What the readers get

`r_buf_data_get` delivers the blocks that were committed after the reader's position, provided that
no block overwrites one of the previous round that the check by index still lets through, and that a
reader of the previous round can take the rest of it.
-/

namespace RingBuf

open Mem Buffer

variable {r r' : RBuf}

/-! ## Regions -/

/-- What a region covers. -/
def view (r : RBuf) (e : IoVec) : List Byte := (r.mem.drop (e.base - r.buf)).take e.len

/-- What the regions cover, one after the other. -/
def views (r : RBuf) (iov : List IoVec) : List Byte := iov.flatMap (view r)

/-- The region lies in the buffer. -/
structure Inside (r : RBuf) (e : IoVec) : Prop where
  ge : r.buf ≤ e.base
  le : e.base + e.len ≤ r.buf + r.size

theorem view_append {base len len' : Nat} (hbase : r.buf ≤ base) :
    view r ⟨base, len + len'⟩ = view r ⟨base, len⟩ ++ view r ⟨base + len, len'⟩ := by
  have hdrop : base + len - r.buf = base - r.buf + len := by omega
  unfold view
  rw [List.take_add, List.drop_drop, hdrop]

theorem view_drop {e : IoVec} {off : Nat} (hbase : r.buf ≤ e.base) :
    view r ⟨e.base + off, e.len - off⟩ = (view r e).drop off := by
  have hdrop : e.base + off - r.buf = e.base - r.buf + off := by omega
  unfold view
  rw [List.drop_take, List.drop_drop, hdrop]

/-- The size that is left when the blocks that fit have been taken. -/
def leftAfter : List Nat → Nat → Nat
  | [], size => size
  | len :: lens, size => if size < len then size else leftAfter lens (size - len)

/-- The loop takes a number of entries: all of them, or as many as there are regions for, or as many
as fit. -/
theorem aggregateLoop_spec (haddr : r.buf + r.size < 2 ^ 64) (iov : List IoVec) :
    ∀ prev cur room dataSize, Inside r cur → prev.base + prev.len = cur.base + cur.len →
      (∀ e ∈ iov, Inside r e) →
      ∃ k, views r (aggregateLoop iov prev cur room dataSize).1 =
          view r cur ++ views r (iov.take k) ∧
        (aggregateLoop iov prev cur room dataSize).1 ≠ [] ∧
        (iov.length ≤ k ∨ (aggregateLoop iov prev cur room dataSize).1.length = room + 1 ∨
          (aggregateLoop iov prev cur room dataSize).2 =
            leftAfter (iov.map IoVec.len) dataSize ∧ dataSize < (iov.map IoVec.len).sum) := by
  induction iov with
  | nil =>
    intro prev cur room dataSize _ _ _
    exact ⟨0, by simp [aggregateLoop, views], by simp [aggregateLoop], .inl (Nat.le_refl _)⟩
  | cons e iov ih =>
    intro prev cur room dataSize hcur hend hinside
    have he := hinside e List.mem_cons_self
    have hrest : ∀ e' ∈ iov, Inside r e' := fun e' he' => hinside e' (List.mem_cons_of_mem _ he')
    have hin := hcur.le
    have hmod : (prev.base + prev.len) % 2 ^ 64 = prev.base + prev.len :=
      Nat.mod_eq_of_lt (by omega)
    unfold aggregateLoop
    rw [hmod]
    -- no region is left, or the entry does not fit
    by_cases hstop : room = 0 ∨ dataSize < e.len
    · rw [if_pos hstop]
      refine ⟨0, by simp [views], nofun, .inr ?_⟩
      rcases hstop with hroom | hsize
      · left
        rw [hroom]
        rfl
      · right
        rw [List.map_cons, List.sum_cons]
        unfold leftAfter
        rw [if_pos hsize]
        exact ⟨rfl, by omega⟩
    · rw [if_neg hstop]
      rw [not_or] at hstop
      have hsum : dataSize - e.len < (iov.map IoVec.len).sum →
          dataSize < ((e :: iov).map IoVec.len).sum := by
        rw [List.map_cons, List.sum_cons]
        omega
      have hleft : leftAfter ((e :: iov).map IoVec.len) dataSize =
          leftAfter (iov.map IoVec.len) (dataSize - e.len) := by
        rw [List.map_cons]
        exact if_neg hstop.2
      -- an entry that begins where the region ends makes it longer
      by_cases hmerge : prev.base + prev.len = e.base
      · rw [if_pos hmerge]
        have hle := he.le
        have hlen : (cur.len + e.len) % 2 ^ 64 = cur.len + e.len := Nat.mod_eq_of_lt (by omega)
        have hnext : cur.base + cur.len = e.base := by omega
        rw [hlen]
        rcases ih e ⟨cur.base, cur.len + e.len⟩ room (dataSize - e.len)
          ⟨hcur.ge, by show cur.base + (cur.len + e.len) ≤ _; omega⟩
          (by show _ = cur.base + (cur.len + e.len); omega) hrest with ⟨k, hviews, hne, hk⟩
        refine ⟨k + 1, ?_, hne, ?_⟩
        · rw [hviews, view_append hcur.ge, hnext, List.take_succ_cons]
          simp [views]
        · rw [hleft]
          rcases hk with hk | hk | ⟨hk, hlt⟩
          · exact .inl (Nat.succ_le_succ hk)
          · exact .inr (.inl hk)
          · exact .inr (.inr ⟨hk, hsum hlt⟩)
      · rw [if_neg hmerge]
        rcases ih e e (room - 1) (dataSize - e.len) he rfl hrest with ⟨k, hviews, hne, hk⟩
        refine ⟨k + 1, ?_, nofun, ?_⟩
        · show views r (cur :: _) = _
          unfold views at hviews ⊢
          rw [List.flatMap_cons, hviews, List.take_succ_cons, List.flatMap_cons]
        · rw [hleft]
          rcases hk with hk | hk | ⟨hk, hlt⟩
          · exact .inl (Nat.succ_le_succ hk)
          · right
            left
            show _ + 1 = _
            rw [hk]
            omega
          · exact .inr (.inr ⟨hk, hsum hlt⟩)

def lensFrom : List IoVec → Nat → List Nat
  | [], _ => []
  | e :: iov, off => (e.len - off) :: iov.map IoVec.len

theorem length_view (hmem : r.mem.length = r.size) {e : IoVec} (he : Inside r e) :
    (view r e).length = e.len := by
  have hge := he.ge
  have hle := he.le
  unfold view
  rw [List.length_take, List.length_drop, hmem]
  omega

/-- What `iovec_aggregate_ex` delivers: nothing, or the data from the offset on of a number of
entries: all of them, or as many as there are regions for, or as many as fit. -/
theorem iovecAggregateEx_spec (haddr : r.buf + r.size < 2 ^ 64) (hmem : r.mem.length = r.size)
    {iov : List IoVec} (hinside : ∀ e ∈ iov, Inside r e) {off : Nat}
    (hoff : ∀ e, iov.head? = some e → off ≤ e.len) (dataSize retCnt : Nat) :
    ∃ k, views r (iovecAggregateEx iov dataSize off retCnt).1 = (views r (iov.take k)).drop off ∧
      (iovecAggregateEx iov dataSize off retCnt = ([], 0) ∨ iov.length ≤ k ∨
        (iovecAggregateEx iov dataSize off retCnt).1.length = retCnt ∨
        (iovecAggregateEx iov dataSize off retCnt).2 = leftAfter (lensFrom iov off) dataSize ∧
          dataSize < (lensFrom iov off).sum) := by
  match iov, hinside, hoff with
  | [], _, _ => exact ⟨0, by simp [iovecAggregateEx, views], .inl rfl⟩
  | first :: rest, hinside, hoff =>
    have hfirst := hinside first List.mem_cons_self
    have hle := hfirst.le
    have hge := hfirst.ge
    have hoff' := hoff first rfl
    have hsub : sub first.len off = first.len - off := sub_of_le (by omega) hoff'
    have hbase : (first.base + off) % 2 ^ 64 = first.base + off := Nat.mod_eq_of_lt (by omega)
    unfold iovecAggregateEx
    simp only [hsub, hbase]
    by_cases hstop : retCnt = 0 ∨ dataSize = 0 ∨ dataSize ≤ first.len - off ∨
        (rest = [] ∧ first.len - off = 0)
    · rw [if_pos hstop]
      exact ⟨0, by simp [views], .inl rfl⟩
    · rw [if_neg hstop]
      rw [not_or, not_or, not_or] at hstop
      -- the first region is what is left of its entry; the loop joins or adds the others
      rcases aggregateLoop_spec haddr rest first ⟨first.base + off, first.len - off⟩ (retCnt - 1)
        (dataSize - (first.len - off)) ⟨by show r.buf ≤ first.base + off; omega,
          by show first.base + off + (first.len - off) ≤ _; omega⟩
        (by show _ = first.base + off + (first.len - off); omega)
        (fun e he => hinside e (List.mem_cons_of_mem _ he)) with ⟨k, hviews, -, hk⟩
      refine ⟨k + 1, ?_, .inr ?_⟩
      · have hlen := length_view hmem hfirst
        rw [hviews, view_drop hge, List.take_succ_cons]
        unfold views
        rw [List.flatMap_cons, List.drop_append_of_le_length (by omega)]
      · rcases hk with hk | hk | ⟨hk, hlt⟩
        · exact .inl (Nat.succ_le_succ hk)
        · right
          left
          rw [hk]
          omega
        · right
          right
          constructor
          · rw [hk]
            exact (if_neg (by omega)).symm
          · show dataSize < (first.len - off) + (rest.map IoVec.len).sum
            omega

/-! ## The committed blocks -/

/-- The entry describes the block. -/
structure HoldsAt (r : RBuf) (j : Nat) (block : List Byte) : Prop where
  inside : Inside r (r.iov j)
  view_eq : view r (r.iov j) = block

/-- The blocks committed at a position and after it, in the order of the commits. -/
def blocksFrom (rounds : List (List (List Byte))) (rpos : RPos) : List (List Byte) :=
  (rounds.getD rpos.roundNum []).drop rpos.iovIndex ++ (rounds.drop (rpos.roundNum + 1)).flatten

/-- The data that follows a position. -/
def following (rounds : List (List (List Byte))) (rpos : RPos) : List Byte :=
  (blocksFrom rounds rpos).flatten.drop rpos.iovOff

variable {past : List (List (List Byte))} {cur : List (List Byte)} {rpos : RPos}

theorem blocksFrom_current (h : rpos.roundNum = past.length) :
    blocksFrom (past ++ [cur]) rpos = cur.drop rpos.iovIndex := by
  have hdrop : (past ++ [cur]).drop (rpos.roundNum + 1) = [] := by
    rw [List.drop_eq_nil_iff, List.length_append, List.length_singleton]
    omega
  unfold blocksFrom
  rw [hdrop, h]
  simp

theorem blocksFrom_previous {front : List (List (List Byte))} {old : List (List Byte)}
    (h : rpos.roundNum = front.length) :
    blocksFrom ((front ++ [old]) ++ [cur]) rpos = old.drop rpos.iovIndex ++ cur := by
  have hdrop : ((front ++ [old]) ++ [cur]).drop (rpos.roundNum + 1) = [cur] := by
    rw [h, List.drop_append_of_le_length (by simp)]
    simp
  unfold blocksFrom
  rw [hdrop, h]
  simp

theorem map_view_entries {i : Nat} {blocks : List (List Byte)}
    (h : ∀ k block, blocks[k]? = some block → HoldsAt r (i + k) block) :
    ((List.range blocks.length).map fun k => r.iov (i + k)).map (view r) = blocks := by
  apply List.ext_getElem?
  intro k
  rw [List.map_map, List.getElem?_map]
  by_cases hk : k < blocks.length
  · have hblock := h k _ (List.getElem?_eq_getElem hk)
    rw [List.getElem?_range hk, List.getElem?_eq_getElem hk, ← hblock.view_eq]
    rfl
  · rw [List.getElem?_eq_none (by rw [List.length_range]; omega), List.getElem?_eq_none (by omega)]
    rfl

theorem views_take (iov : List IoVec) (k : Nat) :
    views r (iov.take k) = ((iov.map (view r)).take k).flatten := by
  unfold views
  rw [List.flatMap_def, List.map_take]

/-- How the buffer and the committed blocks belong together: `past` are the rounds before the current
one, `cur` the blocks of the current one.  Of the previous round, the blocks above the current index
are still there. -/
structure Store (r : RBuf) (past : List (List (List Byte))) (cur : List (List Byte)) : Prop where
  inv : Inv r
  addr : r.buf + r.size < 2 ^ 63
  empty : (r.iov r.iovIndex).len = 0
  round : r.roundNum = past.length
  rounds : r.size * past.length < 2 ^ 64
  index : r.iovIndex = cur.length
  first : past = [] → r.iovIndexMax ≤ r.iovIndex
  holds : ∀ j block, cur[j]? = some block → HoldsAt r j block
  older : ∀ front old, past = front ++ [old] →
    (∀ j block, cur.length < j → old[j]? = some block → HoldsAt r j block) ∧
    r.iovIndexMax + 1 = max old.length cur.length

theorem HoldsAt.same {j : Nat} {block : List Byte} (h : HoldsAt r j block) (hbuf : r'.buf = r.buf)
    (hsize : r'.size = r.size) (hmem : r'.mem = r.mem) (hiov : r'.iov j = r.iov j) :
    HoldsAt r' j block := by
  refine ⟨?_, ?_⟩
  · rw [hiov]
    exact ⟨hbuf ▸ h.inside.ge, by rw [hbuf, hsize]; exact h.inside.le⟩
  · unfold view
    rw [hiov, hbuf, hmem]
    exact h.view_eq

theorem HoldsAt.write {j : Nat} {block data : List Byte} {start : Nat} (h : HoldsAt r j block)
    (hbuf : r'.buf = r.buf) (hsize : r'.size = r.size) (hmem : r'.mem = splice r.mem start data)
    (hiov : r'.iov j = r.iov j) (hfits : start + data.length ≤ r.mem.length)
    (hdisjoint : (r.iov j).base - r.buf + (r.iov j).len ≤ start ∨
      start + data.length ≤ (r.iov j).base - r.buf) : HoldsAt r' j block := by
  refine ⟨?_, ?_⟩
  · rw [hiov]
    exact ⟨hbuf ▸ h.inside.ge, by rw [hbuf, hsize]; exact h.inside.le⟩
  · have hview := h.view_eq
    unfold view at hview ⊢
    rw [hiov, hbuf, hmem, take_drop_splice_of_disjoint hfits hdisjoint]
    exact hview

theorem HoldsAt.rewind {j : Nat} {block : List Byte} (h : HoldsAt r j block) (hinv : Inv r)
    (hiov : (rewind r).iov j = r.iov j)
    (hkeep : r.keepTail = true → r.buf + (r.size - r.wpos) ≤ (r.iov j).base) :
    HoldsAt (rewind r) j block := by
  by_cases htail : r.keepTail = false
  · refine h.same rfl rfl ?_ hiov
    show tailMoved r _ = _
    unfold tailMoved
    exact if_pos htail
  · have hge := hkeep (by simpa using htail)
    have hmem := hinv.mem
    have hle := hinv.wpos
    have hlen : ((r.mem.drop r.wpos).take (r.size - r.wpos)).length = r.size - r.wpos := by
      rw [List.length_take, List.length_drop]
      omega
    have hmoved : (RingBuf.rewind r).mem =
        splice r.mem 0 ((r.mem.drop r.wpos).take (r.size - r.wpos)) := by
      show tailMoved r _ = _
      unfold tailMoved
      exact if_neg htail
    exact h.write rfl rfl hmoved hiov (by rw [hlen]; omega) (.inr (by rw [hlen]; omega))

section Store

variable (hstore : Store r past cur)
include hstore

theorem Store.nextIndex_eq : nextIndex r = r.iovIndex := if_pos hstore.empty

theorem Store.advance : Store (advance r) past cur := by
  have hnext := hstore.nextIndex_eq
  have hiov : ∀ j, j ≠ cur.length → (RingBuf.advance r).iov j = r.iov j := by
    intro j hj
    refine Function.update_of_ne ?_ _ _
    rw [hnext, hstore.index]
    exact hj
  refine ⟨hstore.inv.advance, hstore.addr, by rw [advance_iov_self], hstore.round, hstore.rounds,
    hnext.trans hstore.index, fun hpast => ?_, fun j block hblock => ?_,
    fun front old hpast => ?_⟩
  · show r.iovIndexMax ≤ nextIndex r
    rw [hnext]
    exact hstore.first hpast
  · have hj : j < cur.length := (List.getElem?_eq_some_iff.mp hblock).1
    exact (hstore.holds j block hblock).same rfl rfl rfl (hiov j (Nat.ne_of_lt hj))
  · have hold := hstore.older front old hpast
    refine ⟨fun j block hj hblock => ?_, hold.2⟩
    exact (hold.1 j block hj hblock).same rfl rfl rfl (hiov j (Nat.ne_of_gt hj))

theorem Store.rewind (hwpos : r.wpos ≠ 0) (hrounds : r.size * (r.roundNum + 1) < 2 ^ 64)
    (hkeep : r.keepTail = true → ∀ j, 0 < j → j < r.iovIndex →
      r.buf + (r.size - r.wpos) ≤ (r.iov j).base) : Store (rewind r) (past ++ [cur]) [] := by
  have hinv := hstore.inv
  have hnext := hstore.nextIndex_eq
  have hpos := hinv.nextIndex_pos hwpos
  have hmin := hinv.min_pos
  have hle := hinv.min_le
  have hiov : ∀ j, 0 < j → (RingBuf.rewind r).iov j = r.iov j := by
    intro j hj
    unfold RingBuf.rewind rewindIov
    rw [if_pos hstore.empty]
    exact Function.update_of_ne (Nat.ne_of_gt hj) _ _
  rw [hstore.round] at hrounds
  have hround : past.length + 1 < 2 ^ 64 :=
    Nat.lt_of_le_of_lt (Nat.le_mul_of_pos_left _ (by omega)) hrounds
  refine ⟨hinv.rewind, hstore.addr, ?_, ?_, ?_, rfl, fun h => absurd h (by simp), nofun,
    fun front old hpast => ?_⟩
  · show ((RingBuf.rewind r).iov 0).len = 0
    rw [rewind_iov_zero]
  · show (r.roundNum + 1) % 2 ^ 64 = _
    rw [hstore.round, List.length_append, List.length_singleton, Nat.mod_eq_of_lt hround]
  · rw [List.length_append]
    exact hrounds
  · have hlast : cur = old := by
      have h := congrArg List.getLast? hpast
      simpa using h
    subst hlast
    refine ⟨fun j block hj hblock => ?_, ?_⟩
    · have hlt : j < r.iovIndex := by
        rw [hstore.index]
        exact (List.getElem?_eq_some_iff.mp hblock).1
      exact (hstore.holds j block hblock).rewind hinv (hiov j hj) fun htail => hkeep htail j hj hlt
    · show nextIndex r - 1 + 1 = max cur.length 0
      rw [hnext, hstore.index] at hpos ⊢
      omega

theorem Store.write {buf : Nat} {data : List Byte} (hbase : (r.iov r.iovIndex).base ≤ buf)
    (hend : buf + data.length ≤ r.buf + r.size)
    (habove : ∀ j, r.iovIndex < j → j ≤ r.iovIndexMax → buf + data.length ≤ (r.iov j).base) :
    Store { r with mem := splice r.mem (buf - r.buf) data } past cur := by
  have hinv := hstore.inv
  have hmem := hinv.mem
  have hhead := hinv.base_ge r.iovIndex (Nat.le_refl _)
  have hfits : buf - r.buf + data.length ≤ r.mem.length := by omega
  have hinv' : Inv { r with mem := splice r.mem (buf - r.buf) data } :=
    ⟨hinv.min_pos, hinv.min_le, hinv.buf_pos, hinv.addr, hinv.count,
      (length_splice hfits).trans hmem, hinv.wpos, hinv.max, hinv.head, hinv.chain, hinv.blocks,
      hinv.cur, hinv.cur_len, hinv.empty⟩
  refine ⟨hinv', hstore.addr, hstore.empty, hstore.round, hstore.rounds, hstore.index,
    hstore.first, fun j block hblock => ?_, fun front old hpast => ?_⟩
  · have hholds := hstore.holds j block hblock
    have hge := hholds.inside.ge
    have hlt : j < r.iovIndex := by
      rw [hstore.index]
      exact (List.getElem?_eq_some_iff.mp hblock).1
    have hbelow := hinv.end_le hlt (Nat.le_refl _)
    exact hholds.write rfl rfl rfl rfl hfits (.inl (by omega))
  · have hold := hstore.older front old hpast
    refine ⟨fun j block hj hblock => ?_, hold.2⟩
    have hholds := hold.1 j block hj hblock
    have hge := hholds.inside.ge
    have hlen : j < old.length := (List.getElem?_eq_some_iff.mp hblock).1
    have hmax := hold.2
    have hindex := hstore.index
    have hafter := habove j (by omega) (by omega)
    exact hholds.write rfl rfl rfl rfl hfits (.inr (by omega))

/-- The commit of a block that has been written. -/
theorem Store.commit2 {buf : Nat} {data : List Byte} (hmin : r.minBlockSize ≤ data.length)
    (hbase : (r.iov r.iovIndex).base ≤ buf) (hend : buf + data.length ≤ r.buf + r.size)
    (hdata : view r ⟨buf, data.length⟩ = data) :
    Store (commit2 r buf data.length) past (cur ++ [data]) := by
  have hinv := hstore.inv
  have hpos := hinv.min_pos
  have hhead := hinv.base_ge r.iovIndex (Nat.le_refl _)
  have hindex := hstore.index
  have hlen : (⟨buf, data.length⟩ : IoVec).len ≠ 0 := by
    show data.length ≠ 0
    omega
  have hnext := nextIndex_commit (r := r) hlen (buf + data.length - r.buf)
    (r.frag || buf ≠ (r.iov r.iovIndex).base)
  have hself : (RingBuf.commit2 r buf data.length).iov r.iovIndex = ⟨buf, data.length⟩ := by
    unfold RingBuf.commit2
    rw [advance_iov_of_lt (by rw [hnext]; exact Nat.lt_succ_self _), commit_iov_self]
  have hother : ∀ j, j ≠ r.iovIndex → j ≠ r.iovIndex + 1 →
      (RingBuf.commit2 r buf data.length).iov j = r.iov j := by
    intro j hj hj'
    unfold RingBuf.commit2 RingBuf.advance
    rw [hnext]
    show Function.update _ _ _ j = _
    rw [Function.update_of_ne hj', commit_iov_of_ne hj]
  -- only the entry that is committed and the next one change; what older entries hold is left
  refine ⟨hinv.commit2 hmin hbase hend, hstore.addr, ?_, hstore.round, hstore.rounds, ?_,
    fun hpast => ?_, fun j block hblock => ?_, fun front old hpast => ?_⟩
  · unfold RingBuf.commit2
    rw [advance_iov_self]
  · rw [List.length_append, List.length_singleton, ← hindex]
    exact hnext
  · have hfirst := hstore.first hpast
    show max r.iovIndexMax r.iovIndex ≤ nextIndex _
    rw [hnext]
    omega
  · by_cases hj : j < cur.length
    · rw [List.getElem?_append_left hj] at hblock
      exact (hstore.holds j block hblock).same rfl rfl rfl (hother j (by omega) (by omega))
    · have hlt := (List.getElem?_eq_some_iff.mp hblock).1
      rw [List.length_append, List.length_singleton] at hlt
      have hat : j = r.iovIndex := by omega
      rw [hat, hindex, List.getElem?_append_right (Nat.le_refl _), Nat.sub_self] at hblock
      have hblock' : data = block := Option.some.inj hblock
      subst hblock'
      rw [hat]
      refine ⟨?_, ?_⟩
      · rw [hself]
        exact ⟨by show r.buf ≤ buf; omega, hend⟩
      · rw [hself]
        exact hdata
  · have hold := hstore.older front old hpast
    have hmax := hold.2
    rw [List.length_append, List.length_singleton]
    refine ⟨fun j block hj hblock => ?_, ?_⟩
    · exact (hold.1 j block (by omega) hblock).same rfl rfl rfl (hother j (by omega) (by omega))
    · show max r.iovIndexMax r.iovIndex + 1 = _
      omega

end Store

/-! ## The check of a position -/

/-- "Paranoid check": an offset outside of its block is dropped. -/
def fixOff (r : RBuf) (rpos : RPos) : RPos :=
  if (r.iov rpos.iovIndex).len < rpos.iovOff then { rpos with iovOff := 0 } else rpos

theorem fixOff_round (r : RBuf) (rpos : RPos) : (fixOff r rpos).roundNum = rpos.roundNum := by
  unfold fixOff
  split <;> rfl

theorem fixOff_index (r : RBuf) (rpos : RPos) : (fixOff r rpos).iovIndex = rpos.iovIndex := by
  unfold fixOff
  split <;> rfl

theorem fixOff_le (r : RBuf) (rpos : RPos) :
    (fixOff r rpos).iovOff ≤ (r.iov rpos.iovIndex).len := by
  unfold fixOff
  split
  case isTrue => exact Nat.zero_le _
  case isFalse h => exact Nat.le_of_not_lt h

theorem fixOff_eq (h : rpos.iovOff ≤ (r.iov rpos.iovIndex).len) : fixOff r rpos = rpos :=
  if_neg (Nat.not_lt.mpr h)

theorem rposCheck_eq (hindex : rpos.iovIndex < r.iovCount) :
    rposCheck r rpos =
      if rpos.roundNum = r.roundNum then
        if rpos.iovIndex ≤ r.iovIndex + 1 then some (true, fixOff r rpos, 0)
        else some (false, ⟨r.iovIndex + 1, 0, r.roundNum⟩, 0)
      else if (rpos.roundNum + 1) % 2 ^ 64 = r.roundNum then
        if r.iovIndexMax < rpos.iovIndex then some (true, ⟨0, 0, r.roundNum⟩, 0)
        else if r.iovIndex < rpos.iovIndex then some (true, fixOff r rpos, 0)
        else (r.entries rpos.iovIndex (1 + r.iovIndex - rpos.iovIndex)).map fun lost =>
          (false, fixOff r rpos, (r.size + calcSize lost) % 2 ^ 64)
      else
        some (false, ⟨r.iovIndex + 1, 0, r.roundNum⟩,
          if r.roundNum ≤ (rpos.roundNum + 1) % 2 ^ 64 then 0
          else r.size * (r.roundNum - rpos.roundNum) % 2 ^ 64) := by
  have hfix : (if (r.iov rpos.iovIndex).len < rpos.iovOff then { rpos with iovOff := 0 } else rpos) =
      fixOff r rpos := rfl
  unfold rposCheck
  simp only [entry_of_lt hindex, Option.bind_eq_bind, Option.bind_some, hfix, fixOff_round,
    fixOff_index]
  by_cases hcur : rpos.roundNum = r.roundNum
  · rw [if_pos hcur, if_pos hcur, hcur]
  · rw [if_neg hcur, if_neg hcur]
    by_cases hprev : (rpos.roundNum + 1) % 2 ^ 64 = r.roundNum
    · rw [if_pos hprev, if_pos hprev, hprev]
      cases r.entries rpos.iovIndex (1 + r.iovIndex - rpos.iovIndex) with
      | none => rfl
      | some lost => rfl
    · rw [if_neg hprev, if_neg hprev]

theorem calcSize_eq (iov : List IoVec) : calcSize iov = (iov.map IoVec.len).sum % 2 ^ 64 := by
  have hfold : ∀ (iov : List IoVec) (size : Nat),
      iov.foldl (fun size e => (size + e.len) % 2 ^ 64) (size % 2 ^ 64) =
        (size + (iov.map IoVec.len).sum) % 2 ^ 64 := by
    intro iov
    induction iov with
    | nil => exact fun size => rfl
    | cons e iov ih =>
      intro size
      rw [List.foldl_cons, List.map_cons, List.sum_cons, ← Nat.add_assoc, ← ih, Nat.mod_add_mod]
  have h := hfold iov 0
  rw [Nat.zero_add] at h
  exact h

theorem sum_lens_le (iov : Nat → IoVec) (i n : Nat)
    (hchain : ∀ j, i ≤ j → j < i + n → (iov j).base + (iov j).len ≤ (iov (j + 1)).base) :
    (iov i).base + (((List.range (n + 1)).map fun k => iov (i + k)).map IoVec.len).sum ≤
      (iov (i + n)).base + (iov (i + n)).len := by
  induction n with
  | zero => simp
  | succ n ih =>
    have hprev := ih fun j hj hlt => hchain j hj (by omega)
    have hnext := hchain (i + n) (Nat.le_add_right _ _) (by omega)
    rw [List.range_succ, List.map_append, List.map_append, List.sum_append, List.map_singleton,
      List.map_singleton, List.sum_singleton]
    rw [Nat.add_assoc i] at hnext
    omega

theorem Inv.sum_le (hinv : Inv r) (i n : Nat) (hin : i + n ≤ r.iovIndex) :
    (r.iov i).base + (((List.range (n + 1)).map fun k => r.iov (i + k)).map IoVec.len).sum ≤
      (r.iov (i + n)).base + (r.iov (i + n)).len :=
  sum_lens_le r.iov i n fun j _ hlt => hinv.chain j (by omega)

theorem Store.rposCheck_slow (hstore : Store r past cur) (hindex : rpos.iovIndex ≤ r.iovIndex) :
    ∃ lost, r.entries rpos.iovIndex (1 + r.iovIndex - rpos.iovIndex) = some lost ∧
      (r.size + calcSize lost) % 2 ^ 64 ≠ 0 := by
  have hinv := hstore.inv
  have hcount := hinv.index_lt
  have hcur := hinv.cur
  have hwpos := hinv.wpos
  have hmin := hinv.min_pos
  have hle := hinv.min_le
  have haddr := hstore.addr
  have hhead := hinv.base_ge rpos.iovIndex hindex
  have hsum := hinv.sum_le rpos.iovIndex (r.iovIndex - rpos.iovIndex) (by omega)
  have hn : 1 + r.iovIndex - rpos.iovIndex = r.iovIndex - rpos.iovIndex + 1 := by omega
  rw [show rpos.iovIndex + (r.iovIndex - rpos.iovIndex) = r.iovIndex by omega] at hsum
  unfold RBuf.entries
  rw [if_pos (by omega), hn]
  refine ⟨_, rfl, ?_⟩
  rw [calcSize_eq]
  omega

/-! ## What a reader gets -/

theorem aggregate_blocks (hinv : Inv r) {i : Nat} {blocks : List (List Byte)}
    (hbound : i + blocks.length ≤ r.iovCount)
    (hholds : ∀ k block, blocks[k]? = some block → HoldsAt r (i + k) block) {off : Nat}
    (hoff : off ≤ (r.iov i).len) (dataSize retCnt : Nat) :
    ∃ iov, r.entries i blocks.length = some iov ∧
      iov = (List.range blocks.length).map (fun k => r.iov (i + k)) ∧
      ∃ k, views r (iovecAggregateEx iov dataSize off retCnt).1 = (blocks.take k).flatten.drop off ∧
        (iovecAggregateEx iov dataSize off retCnt = ([], 0) ∨ blocks.length ≤ k ∨
          (iovecAggregateEx iov dataSize off retCnt).1.length = retCnt ∨
          (iovecAggregateEx iov dataSize off retCnt).2 = leftAfter (lensFrom iov off) dataSize ∧
            dataSize < (lensFrom iov off).sum) := by
  have hinside : ∀ e ∈ (List.range blocks.length).map (fun k => r.iov (i + k)), Inside r e := by
    intro e he
    rcases List.mem_map.mp he with ⟨k, hk, rfl⟩
    exact (hholds k _ (List.getElem?_eq_getElem (List.mem_range.mp hk))).inside
  have hhead : ∀ e, ((List.range blocks.length).map fun k => r.iov (i + k)).head? = some e →
      off ≤ e.len := by
    intro e he
    cases hlen : blocks.length with
    | zero =>
      rw [hlen] at he
      exact absurd he nofun
    | succ n =>
      rw [hlen, List.range_succ_eq_map] at he
      have he' : r.iov (i + 0) = e := Option.some.inj he
      rw [← he']
      exact hoff
  rcases iovecAggregateEx_spec hinv.addr hinv.mem hinside hhead dataSize retCnt with ⟨k, hviews, hk⟩
  refine ⟨_, if_pos hbound, rfl, k, ?_, ?_⟩
  · rw [hviews, views_take, map_view_entries hholds]
  · rw [List.length_map, List.length_range] at hk
    exact hk

section Reader

variable (hstore : Store r past cur)
include hstore

theorem Store.holds_current (i : Nat) (hi : i ≤ r.iovIndex) :
    ∀ k block, (cur.drop i ++ [[]])[k]? = some block → HoldsAt r (i + k) block := by
  have hinv := hstore.inv
  have hindex := hstore.index
  intro k block hblock
  by_cases hk : k < (cur.drop i).length
  · rw [List.getElem?_append_left hk, List.getElem?_drop] at hblock
    exact hstore.holds _ _ hblock
  · have hlt := (List.getElem?_eq_some_iff.mp hblock).1
    rw [List.length_append, List.length_singleton] at hlt
    have hlen : (cur.drop i).length = cur.length - i := List.length_drop
    have hat : k = (cur.drop i).length := by omega
    rw [hat, List.getElem?_append_right (Nat.le_refl _), Nat.sub_self] at hblock
    have hblock' : [] = block := Option.some.inj hblock
    subst hblock'
    have hlast : i + k = r.iovIndex := by omega
    rw [hlast]
    have hbase := hinv.base_ge r.iovIndex (Nat.le_refl _)
    have hcur := hinv.cur
    have hwpos := hinv.wpos
    refine ⟨⟨by omega, by omega⟩, ?_⟩
    unfold view
    rw [hstore.empty, List.take_zero]

theorem Store.read_current {p : RPos} (hround : p.roundNum = r.roundNum)
    (hindex : p.iovIndex ≤ r.iovIndex) (hoff : p.iovOff ≤ (r.iov p.iovIndex).len)
    (dataSize retCnt : Nat) :
    ∃ iov, r.entries p.iovIndex (1 + r.iovIndex - p.iovIndex) = some iov ∧
      views r (iovecAggregateEx iov dataSize p.iovOff retCnt).1 <+: following (past ++ [cur]) p := by
  have hcount := hstore.inv.index_lt
  have hcur := hstore.index
  have hlen : (cur.drop p.iovIndex ++ [[]]).length = 1 + r.iovIndex - p.iovIndex := by
    rw [List.length_append, List.length_drop, List.length_singleton]
    omega
  rcases aggregate_blocks hstore.inv (by rw [hlen]; omega)
    (hstore.holds_current p.iovIndex hindex) hoff dataSize retCnt with ⟨iov, hiov, -, k, hviews, -⟩
  rw [hlen] at hiov
  refine ⟨iov, hiov, ?_⟩
  have hflat : (cur.drop p.iovIndex ++ [[]]).flatten = (cur.drop p.iovIndex).flatten := by simp
  have htake : (cur.drop p.iovIndex ++ [[]]).take k <+: cur.drop p.iovIndex ++ [[]] :=
    ⟨_, List.take_append_drop k _⟩
  unfold following
  rw [hviews, blocksFrom_current (hround.trans hstore.round), ← hflat]
  exact htake.flatten.drop _

/-- The sizes of the blocks of the previous round from a position on. -/
def restLens (r : RBuf) (p : RPos) : List Nat :=
  lensFrom ((List.range (1 + r.iovIndexMax - p.iovIndex)).map fun k => r.iov (p.iovIndex + k))
    p.iovOff

omit hstore in
theorem iovecAggregateEx_nil {e : IoVec} {rest : List IoVec} (he : e.len < 2 ^ 64)
    {dataSize retCnt : Nat}
    (h : retCnt = 0 ∨ dataSize = 0 ∨ dataSize ≤ e.len ∨ (rest = [] ∧ e.len = 0)) :
    iovecAggregateEx (e :: rest) dataSize 0 retCnt = ([], 0) := by
  have hsub : sub e.len 0 = e.len := sub_of_le he (Nat.zero_le _)
  unfold iovecAggregateEx
  simp only [hsub]
  exact if_pos h

/-- Reading in the previous round, and then in the current one. -/
theorem Store.read_previous {front : List (List (List Byte))} {old : List (List Byte)} {p : RPos}
    (hpast : past = front ++ [old]) (hround : p.roundNum = front.length)
    (hgt : r.iovIndex < p.iovIndex) (hle : p.iovIndex ≤ r.iovIndexMax)
    (hoff : p.iovOff ≤ (r.iov p.iovIndex).len) (dataSize retCnt : Nat)
    (horder : (restLens r p).sum ≤ dataSize ∨ r.iovIndex = 0 ∨
      leftAfter (restLens r p) dataSize ≤ (r.iov 0).len) :
    ∃ iov1 iov2, r.entries p.iovIndex (1 + r.iovIndexMax - p.iovIndex) = some iov1 ∧
      r.entries 0 (1 + r.iovIndex) = some iov2 ∧
      views r ((iovecAggregateEx iov1 dataSize p.iovOff retCnt).1 ++
        (iovecAggregateEx iov2 (iovecAggregateEx iov1 dataSize p.iovOff retCnt).2 0
          (retCnt - (iovecAggregateEx iov1 dataSize p.iovOff retCnt).1.length)).1) <+:
        following (past ++ [cur]) p := by
  have hinv := hstore.inv
  have hcount := hinv.count
  have hmaxle := hinv.max
  have hindex := hstore.index
  rcases hstore.older front old hpast with ⟨hholds, hmax⟩
  have hold : r.iovIndexMax + 1 = old.length := by omega
  have hlen : (old.drop p.iovIndex).length = 1 + r.iovIndexMax - p.iovIndex := by
    rw [List.length_drop]
    omega
  have hholds1 : ∀ k block, (old.drop p.iovIndex)[k]? = some block →
      HoldsAt r (p.iovIndex + k) block := by
    intro k block hblock
    rw [List.getElem?_drop] at hblock
    exact hholds _ _ (by omega) hblock
  rcases aggregate_blocks hinv (by rw [hlen]; omega) hholds1 hoff dataSize retCnt with
    ⟨iov1, hiov1, hlist1, k1, hviews1, hk1⟩
  have hlen2 : (cur.drop 0 ++ [[]]).length = 1 + r.iovIndex := by
    rw [List.length_append, List.length_drop, List.length_singleton]
    omega
  have hbound2 := hinv.index_lt
  generalize hagg1 : iovecAggregateEx iov1 dataSize p.iovOff retCnt = agg1 at hviews1 hk1
  rcases aggregate_blocks hinv (by rw [hlen2]; omega) (hstore.holds_current 0 (Nat.zero_le _))
    (Nat.zero_le _) agg1.2 (retCnt - agg1.1.length) with ⟨iov2, hiov2, hlist2, k2, hviews2, -⟩
  rw [hlen] at hiov1 hlist1
  rw [hlen2] at hiov2 hlist2
  refine ⟨iov1, iov2, hiov1, hiov2, ?_⟩
  have hrest : lensFrom iov1 p.iovOff = restLens r p := by rw [hlist1]; rfl
  have hcons2 : iov2 = r.iov 0 :: (List.range r.iovIndex).map fun k => r.iov (0 + (k + 1)) := by
    rw [hlist2, Nat.add_comm 1, List.range_succ_eq_map, List.map_cons, List.map_map]
    rfl
  have hzero : (r.iov 0).len < 2 ^ 64 := by
    have hinside := (hstore.holds_current 0 (Nat.zero_le _) 0 _
      (List.getElem?_eq_getElem (by rw [hlen2]; omega))).inside.le
    have haddr := hinv.addr
    rw [Nat.add_zero] at hinside
    omega
  -- either the second call delivers nothing, or the first one took the rest of the round
  have hphase : (iovecAggregateEx iov2 agg1.2 0 (retCnt - agg1.1.length)).1 = [] ∨
      (old.drop p.iovIndex).length ≤ k1 := by
    have hnil : ∀ {dataSize retCnt : Nat}, (retCnt = 0 ∨ dataSize = 0 ∨ dataSize ≤ (r.iov 0).len ∨
        r.iovIndex = 0) → (iovecAggregateEx iov2 dataSize 0 retCnt).1 = [] := by
      intro dataSize retCnt h
      rw [hcons2, iovecAggregateEx_nil hzero]
      rcases h with h | h | h | h
      · exact .inl h
      · exact .inr (.inl h)
      · exact .inr (.inr (.inl h))
      · have hempty := hstore.empty
        rw [h] at hempty ⊢
        exact .inr (.inr (.inr ⟨rfl, hempty⟩))
    rcases hk1 with hk1 | hk1 | hk1 | ⟨hleft, hlt⟩
    · left
      rw [hk1]
      exact hnil (.inr (.inl rfl))
    · exact .inr hk1
    · left
      rw [hk1, Nat.sub_self]
      exact hnil (.inl rfl)
    · left
      rw [hrest] at hleft hlt
      rcases horder with horder | horder | horder
      · omega
      · exact hnil (.inr (.inr (.inr horder)))
      · rw [← hleft] at horder
        exact hnil (.inr (.inr (.inl horder)))
  have hsplit : ∀ iov iov', views r (iov ++ iov') = views r iov ++ views r iov' := by
    intro iov iov'
    unfold views
    rw [List.flatMap_append]
  unfold following
  rw [hpast, blocksFrom_previous hround, List.flatten_append, hsplit, hagg1, hviews1]
  rcases hphase with hnone | hall
  · have htake : (old.drop p.iovIndex).take k1 <+: old.drop p.iovIndex :=
      ⟨_, List.take_append_drop k1 _⟩
    rw [hnone]
    show _ ++ [] <+: _
    rw [List.append_nil]
    exact (htake.flatten.trans ⟨_, rfl⟩).drop _
  · have hfirst : p.iovOff ≤ (old.drop p.iovIndex).flatten.length := by
      have hlt : p.iovIndex < old.length := by omega
      have hblock := hholds _ _ (by omega) (List.getElem?_eq_getElem hlt)
      have hsize := length_view hinv.mem hblock.inside
      rw [hblock.view_eq] at hsize
      rw [List.drop_eq_getElem_cons hlt, List.flatten_cons, List.length_append]
      omega
    have htake : (cur.drop 0 ++ [[]]).take k2 <+: cur.drop 0 ++ [[]] :=
      ⟨_, List.take_append_drop k2 _⟩
    have hflat : (cur.drop 0 ++ [[]]).flatten = cur.flatten := by simp
    have hlast := htake.flatten
    rw [hflat] at hlast
    rw [List.take_of_length_le hall, hviews2, List.drop_zero,
      List.drop_append_of_le_length hfirst]
    exact (List.prefix_append_right_inj _).mpr hlast

/-- The writer has come to the index of the position in a later round. -/
def Behind (r : RBuf) (rpos : RPos) : Prop :=
  rpos.roundNum + 1 < r.roundNum ∨ rpos.roundNum + 1 = r.roundNum ∧ rpos.iovIndex ≤ r.iovIndex

/-- A reader of the previous round can take the rest of it, or no block of the current round fits
into what is left. -/
def InOrder (r : RBuf) (rpos : RPos) (dataSize : Nat) : Prop :=
  rpos.roundNum + 1 = r.roundNum → r.iovIndex < rpos.iovIndex → rpos.iovIndex ≤ r.iovIndexMax →
    (restLens r (fixOff r rpos)).sum ≤ dataSize ∨ r.iovIndex = 0 ∨
      leftAfter (restLens r (fixOff r rpos)) dataSize ≤ (r.iov 0).len

/-- The offset lies in the block at the position. -/
def OffInBlock (rounds : List (List (List Byte))) (rpos : RPos) : Prop :=
  rpos.iovOff ≤ ((rounds.getD rpos.roundNum []).getD rpos.iovIndex []).length

/-- What a reader gets: data that was committed after its position, in the order of the commits.  The
position moves only over a reported drop, and a block that may be overwritten is reported. -/
structure Delivered (rounds : List (List (List Byte))) (r : RBuf) (rpos : RPos) (got : Got) :
    Prop where
  committed : views r got.iov <+: following rounds got.rpos
  kept : got.dropSize = some 0 → rpos.roundNum ≤ r.roundNum → OffInBlock rounds rpos →
    following rounds got.rpos = following rounds rpos
  reported : got.dropSize ≠ none → Behind r rpos →
    rpos.iovIndex < (rounds.getD rpos.roundNum []).length →
    got.iov = [] ∧ ∃ dropSize, dropSize ≠ 0 ∧ got.dropSize = some dropSize

omit hstore in
theorem dataGet_of_check {dataSize iovCnt : Nat} (hdata : ¬(dataSize = 0 ∨ iovCnt = 0)) {p : RPos}
    {dropSize : Nat} (hcheck : rposCheck r rpos = some (false, p, dropSize)) :
    dataGet r rpos dataSize iovCnt = some ⟨[], p, some dropSize, 0⟩ := by
  unfold dataGet
  rw [if_neg hdata, hcheck]
  rfl

theorem Store.dataGet_current {dataSize iovCnt : Nat} (hdata : ¬(dataSize = 0 ∨ iovCnt = 0))
    {p : RPos} (hcheck : rposCheck r rpos = some (true, p, 0)) (hround : p.roundNum = r.roundNum)
    (hindex : p.iovIndex ≤ r.iovIndex + 1) (hoff : p.iovOff ≤ (r.iov p.iovIndex).len) :
    ∃ got, dataGet r rpos dataSize iovCnt = some got ∧ got.rpos = p ∧ got.dropSize = some 0 ∧
      views r got.iov <+: following (past ++ [cur]) p := by
  unfold dataGet
  rw [if_neg hdata, hcheck]
  simp only [Option.bind_eq_bind, Option.bind_some, Bool.true_eq_false, if_false, if_pos hround]
  by_cases hend : p.iovIndex = r.iovIndex + 1
  · rw [if_pos hend]
    exact ⟨_, rfl, rfl, rfl, List.nil_prefix⟩
  · rw [if_neg hend]
    rcases hstore.read_current hround (by omega) hoff dataSize iovCnt with ⟨iov, hiov, hviews⟩
    rw [hiov]
    exact ⟨_, rfl, rfl, rfl, hviews⟩

theorem Store.dataGet_previous {front : List (List (List Byte))} {old : List (List Byte)}
    {dataSize iovCnt : Nat} (hdata : ¬(dataSize = 0 ∨ iovCnt = 0)) {p : RPos}
    (hcheck : rposCheck r rpos = some (true, p, 0)) (hpast : past = front ++ [old])
    (hround : p.roundNum = front.length) (hgt : r.iovIndex < p.iovIndex)
    (hle : p.iovIndex ≤ r.iovIndexMax) (hoff : p.iovOff ≤ (r.iov p.iovIndex).len)
    (horder : (restLens r p).sum ≤ dataSize ∨ r.iovIndex = 0 ∨
      leftAfter (restLens r p) dataSize ≤ (r.iov 0).len) :
    ∃ got, dataGet r rpos dataSize iovCnt = some got ∧ got.rpos = p ∧ got.dropSize = some 0 ∧
      views r got.iov <+: following (past ++ [cur]) p := by
  have hne : ¬p.roundNum = r.roundNum := by
    rw [hround, hstore.round, hpast, List.length_append, List.length_singleton]
    omega
  rcases hstore.read_previous hpast hround hgt hle hoff dataSize iovCnt horder with
    ⟨iov1, iov2, hiov1, hiov2, hviews⟩
  unfold dataGet
  rw [if_neg hdata, hcheck]
  simp only [Option.bind_eq_bind, Option.bind_some, Bool.true_eq_false, if_false, if_neg hne,
    hiov1, hiov2]
  exact ⟨_, rfl, rfl, rfl, hviews⟩

theorem Store.round_lt : r.roundNum < 2 ^ 64 := by
  have hmin := hstore.inv.min_pos
  have hle := hstore.inv.min_le
  rw [hstore.round]
  exact Nat.lt_of_le_of_lt (Nat.le_mul_of_pos_left _ (by omega)) hstore.rounds

theorem Store.exists_old (hround : rpos.roundNum + 1 = r.roundNum) :
    ∃ front old, past = front ++ [old] ∧ rpos.roundNum = front.length ∧
      (past ++ [cur]).getD rpos.roundNum [] = old := by
  have hlen := hstore.round
  rcases List.eq_nil_or_concat past with hnil | ⟨front, old, hpast⟩
  · rw [hnil, List.length_nil] at hlen
    omega
  · rw [List.concat_eq_append] at hpast
    rw [hpast, List.length_append, List.length_singleton] at hlen
    have hfront : rpos.roundNum = front.length := by omega
    refine ⟨front, old, hpast, hfront, ?_⟩
    rw [hpast, hfront]
    simp

omit hstore in
theorem HoldsAt.fixOff_eq (hmem : r.mem.length = r.size) {block : List Byte}
    (hholds : HoldsAt r rpos.iovIndex block) (hoff : rpos.iovOff ≤ block.length) :
    fixOff r rpos = rpos := by
  have hlen := length_view hmem hholds.inside
  rw [hholds.view_eq] at hlen
  exact RingBuf.fixOff_eq (by omega)

theorem Store.fixOff_current (hround : rpos.roundNum = r.roundNum)
    (hoff : OffInBlock (past ++ [cur]) rpos) : fixOff r rpos = rpos := by
  have hcur : (past ++ [cur]).getD rpos.roundNum [] = cur := by
    rw [hround, hstore.round]
    simp
  unfold OffInBlock at hoff
  rw [hcur] at hoff
  by_cases hlt : rpos.iovIndex < cur.length
  · rw [List.getD_eq_getElem _ _ hlt] at hoff
    exact (hstore.holds _ _ (List.getElem?_eq_getElem hlt)).fixOff_eq hstore.inv.mem hoff
  · rw [List.getD_eq_default _ _ (Nat.le_of_not_lt hlt), List.length_nil] at hoff
    exact RingBuf.fixOff_eq (by omega)

theorem Store.delivered_current {dataSize iovCnt : Nat} (hdata : ¬(dataSize = 0 ∨ iovCnt = 0))
    (hindex : rpos.iovIndex < r.iovCount) (hround : rpos.roundNum = r.roundNum) :
    ∃ got, dataGet r rpos dataSize iovCnt = some got ∧ Delivered (past ++ [cur]) r rpos got := by
  have hcheck := rposCheck_eq hindex
  have hnot : ¬Behind r rpos := by
    unfold Behind
    omega
  rw [if_pos hround] at hcheck
  by_cases hle : rpos.iovIndex ≤ r.iovIndex + 1
  · rw [if_pos hle] at hcheck
    have hfix := fixOff_le r rpos
    rw [← fixOff_index r rpos] at hfix hle
    rcases hstore.dataGet_current hdata hcheck ((fixOff_round r rpos).trans hround) hle hfix with
      ⟨got, hget, hpos, -, hviews⟩
    refine ⟨got, hget, hpos ▸ hviews, fun _ _ hoff => ?_, fun _ hbehind => absurd hbehind hnot⟩
    rw [hpos, hstore.fixOff_current hround hoff]
  · rw [if_neg hle] at hcheck
    refine ⟨_, dataGet_of_check hdata hcheck, List.nil_prefix, fun _ _ _ => ?_,
      fun _ hbehind => absurd hbehind hnot⟩
    -- there is nothing behind the last block
    have hcur := hstore.index
    unfold following
    rw [blocksFrom_current (hround.trans hstore.round), blocksFrom_current hstore.round,
      List.drop_eq_nil_of_le (show cur.length ≤ r.iovIndex + 1 by omega),
      List.drop_eq_nil_of_le (show cur.length ≤ rpos.iovIndex by omega)]
    simp

/-- A position in the previous round. -/
theorem Store.delivered_previous {dataSize iovCnt : Nat} (hdata : ¬(dataSize = 0 ∨ iovCnt = 0))
    (hindex : rpos.iovIndex < r.iovCount) (hround : rpos.roundNum + 1 = r.roundNum)
    (horder : InOrder r rpos dataSize) :
    ∃ got, dataGet r rpos dataSize iovCnt = some got ∧ Delivered (past ++ [cur]) r rpos got := by
  have hlt := hstore.round_lt
  have hcheck := rposCheck_eq hindex
  rcases hstore.exists_old hround with ⟨front, old, hpast, hfront, hold⟩
  rcases hstore.older front old hpast with ⟨hholds, hmax⟩
  have hcur := hstore.index
  have hnext : (rpos.roundNum + 1) % 2 ^ 64 = r.roundNum := by
    rw [hround]
    exact Nat.mod_eq_of_lt hlt
  rw [if_neg (by omega), if_pos hnext] at hcheck
  by_cases habove : r.iovIndexMax < rpos.iovIndex
  · -- the reader has taken the whole round
    rw [if_pos habove] at hcheck
    have hnil : old.drop rpos.iovIndex = [] := List.drop_eq_nil_of_le (by omega)
    rcases hstore.dataGet_current hdata hcheck rfl (Nat.zero_le _) (Nat.zero_le _) with
      ⟨got, hget, hpos, -, hviews⟩
    refine ⟨got, hget, hpos ▸ hviews, fun _ _ hoff => ?_, fun _ _ hblock => ?_⟩
    · unfold OffInBlock at hoff
      rw [hold, List.getD_eq_default _ _ (by omega), List.length_nil] at hoff
      have hzero : rpos.iovOff = 0 := by omega
      unfold following
      rw [hpos, blocksFrom_current hstore.round, hpast, blocksFrom_previous hfront, hnil, hzero]
      rfl
    · rw [hold] at hblock
      omega
  · rw [if_neg habove] at hcheck
    by_cases hgt : r.iovIndex < rpos.iovIndex
    · rw [if_pos hgt] at hcheck
      have hlen : rpos.iovIndex < old.length := by omega
      have hfix := fixOff_le r rpos
      rw [← fixOff_index r rpos] at hfix
      rcases hstore.dataGet_previous hdata hcheck hpast ((fixOff_round r rpos).trans hfront)
        (by rw [fixOff_index]; exact hgt) (by rw [fixOff_index]; omega) hfix
        (horder hround hgt (by omega)) with ⟨got, hget, hpos, -, hviews⟩
      refine ⟨got, hget, hpos ▸ hviews, fun _ _ hoff => ?_, fun _ hbehind => ?_⟩
      · unfold OffInBlock at hoff
        rw [hold, List.getD_eq_getElem _ _ hlen] at hoff
        rw [hpos,
          (hholds _ _ (by omega) (List.getElem?_eq_getElem hlen)).fixOff_eq hstore.inv.mem hoff]
      · unfold Behind at hbehind
        omega
    · rw [if_neg hgt] at hcheck
      rcases hstore.rposCheck_slow (Nat.le_of_not_lt hgt) with ⟨lost, hlost, hdrop⟩
      rw [hlost] at hcheck
      refine ⟨_, dataGet_of_check hdata hcheck, List.nil_prefix, fun hzero => ?_,
        fun _ _ _ => ⟨rfl, _, hdrop, rfl⟩⟩
      exact absurd (Option.some.inj hzero) hdrop

theorem Store.delivered_lost {dataSize iovCnt : Nat} (hdata : ¬(dataSize = 0 ∨ iovCnt = 0))
    (hindex : rpos.iovIndex < r.iovCount) (hround : rpos.roundNum + 1 < r.roundNum) :
    ∃ got, dataGet r rpos dataSize iovCnt = some got ∧ Delivered (past ++ [cur]) r rpos got := by
  have hlt := hstore.round_lt
  have hmin := hstore.inv.min_pos
  have hsize := hstore.inv.min_le
  have hcheck := rposCheck_eq hindex
  have hmod : (rpos.roundNum + 1) % 2 ^ 64 = rpos.roundNum + 1 := Nat.mod_eq_of_lt (by omega)
  have hdrop : r.size * (r.roundNum - rpos.roundNum) % 2 ^ 64 ≠ 0 := by
    have hbound : r.size * (r.roundNum - rpos.roundNum) ≤ r.size * past.length := by
      rw [← hstore.round]
      exact Nat.mul_le_mul_left _ (Nat.sub_le _ _)
    have hpos : 0 < r.size * (r.roundNum - rpos.roundNum) :=
      Nat.mul_pos (by omega) (Nat.sub_pos_of_lt (by omega))
    rw [Nat.mod_eq_of_lt (Nat.lt_of_le_of_lt hbound hstore.rounds)]
    exact Nat.ne_of_gt hpos
  rw [if_neg (by omega), hmod, if_neg (by omega), if_neg (by omega)] at hcheck
  refine ⟨_, dataGet_of_check hdata hcheck, List.nil_prefix, fun hzero => ?_,
    fun _ _ _ => ⟨rfl, _, hdrop, rfl⟩⟩
  exact absurd (Option.some.inj hzero) hdrop

theorem Store.delivered_ahead {dataSize iovCnt : Nat} (hdata : ¬(dataSize = 0 ∨ iovCnt = 0))
    (hindex : rpos.iovIndex < r.iovCount) (hround : r.roundNum < rpos.roundNum)
    (hrpos : rpos.roundNum < 2 ^ 64) :
    ∃ got, dataGet r rpos dataSize iovCnt = some got ∧ Delivered (past ++ [cur]) r rpos got := by
  have hcheck := rposCheck_eq hindex
  have hle : ¬rpos.roundNum ≤ r.roundNum := Nat.not_le.mpr hround
  have hnot : ¬Behind r rpos := by
    unfold Behind
    omega
  rw [if_neg (by omega)] at hcheck
  by_cases hwrap : (rpos.roundNum + 1) % 2 ^ 64 = r.roundNum
  · -- only the number before the first round
    have hpast : past = [] := by
      have hlen := hstore.round
      exact List.eq_nil_of_length_eq_zero (by omega)
    have hfirst := hstore.first hpast
    rw [if_pos hwrap] at hcheck
    by_cases habove : r.iovIndexMax < rpos.iovIndex
    · rw [if_pos habove] at hcheck
      rcases hstore.dataGet_current hdata hcheck rfl (Nat.zero_le _) (Nat.zero_le _) with
        ⟨got, hget, hpos, -, hviews⟩
      exact ⟨got, hget, hpos ▸ hviews, fun _ h => absurd h hle, fun _ h => absurd h hnot⟩
    · have hslow : rpos.iovIndex ≤ r.iovIndex := by omega
      rcases hstore.rposCheck_slow hslow with ⟨lost, hlost, -⟩
      rw [if_neg habove, if_neg (Nat.not_lt.mpr hslow), hlost] at hcheck
      exact ⟨_, dataGet_of_check hdata hcheck, List.nil_prefix, fun _ h => absurd h hle,
        fun _ h => absurd h hnot⟩
  · rw [if_neg hwrap] at hcheck
    exact ⟨_, dataGet_of_check hdata hcheck, List.nil_prefix, fun _ h => absurd h hle,
      fun _ h => absurd h hnot⟩

theorem Store.delivered (hrpos : rpos.roundNum < 2 ^ 64) (hindex : rpos.iovIndex < r.iovCount)
    {dataSize : Nat} (horder : InOrder r rpos dataSize) (iovCnt : Nat) :
    ∃ got, dataGet r rpos dataSize iovCnt = some got ∧ Delivered (past ++ [cur]) r rpos got := by
  by_cases hdata : dataSize = 0 ∨ iovCnt = 0
  · exact ⟨⟨[], rpos, none, 0⟩, if_pos hdata, List.nil_prefix, nofun, fun h => absurd rfl h⟩
  · rcases Nat.lt_trichotomy (rpos.roundNum + 1) r.roundNum with hlost | hprev | hnext
    · exact hstore.delivered_lost hdata hindex hlost
    · exact hstore.delivered_previous hdata hindex hprev horder
    · rcases Nat.lt_or_eq_of_le (Nat.le_of_lt_succ hnext) with hahead | hcur
      · exact hstore.delivered_ahead hdata hindex hahead hrpos
      · exact hstore.delivered_current hdata hindex hcur.symm

end Reader

/-! ## Runs of the writer -/

/-- The buffer with the blocks committed so far, and a block that is written but not committed. -/
structure Sys where
  r : RBuf
  past : List (List (List Byte))
  cur : List (List Byte)
  pending : Option (Nat × List Byte)

/-- What the writer does: it asks for room, it writes a block, it commits what it has written. -/
inductive WriterOp where
  | get (minBufSize : Nat)
  | write (buf : Nat) (data : List Byte)
  | set2

/-- The block is one that `r_buf_wbuf_set2` accepts. -/
def Accepts (r : RBuf) (buf : Nat) (data : List Byte) : Prop :=
  r.minBlockSize ≤ data.length ∧ (r.iov r.iovIndex).base ≤ buf ∧
    buf + data.length ≤ r.buf + r.size

instance (r : RBuf) (buf : Nat) (data : List Byte) : Decidable (Accepts r buf data) :=
  inferInstanceAs (Decidable (_ ∧ _ ∧ _))

namespace Sys

/-- A get between two commits. -/
def get (s : Sys) (minBufSize : Nat) : Option Sys :=
  if s.pending.isSome then none
  else do
    let (_, r) ← wbufGet s.r minBufSize
    if r.roundNum = s.r.roundNum then some { s with r }
    else some { s with r, past := s.past ++ [s.cur], cur := [] }

/-- The writer writes only bytes that it commits next. -/
def write (s : Sys) (buf : Nat) (data : List Byte) : Option Sys :=
  if s.pending.isSome ∨ ¬Accepts s.r buf data then none
  else
    some
      { s with
        r := { s.r with mem := splice s.r.mem (buf - s.r.buf) data }
        pending := some (buf, data) }

/-- The commit of what is written. -/
def set2 (s : Sys) : Option Sys := do
  let (buf, data) ← s.pending
  let (ret, r) ← wbufSet2 s.r buf data.length
  some { s with r, cur := if ret = .ok then s.cur ++ [data] else s.cur, pending := none }

/-- A step of the writer. -/
def step (s : Sys) : WriterOp → Option Sys
  | .get minBufSize => s.get minBufSize
  | .write buf data => s.write buf data
  | .set2 => s.set2

/-- The committed blocks, round by round. -/
def rounds (s : Sys) : List (List (List Byte)) := s.past ++ [s.cur]

/-- A new block ends before the blocks of the previous round that the check by index lets through; so
does the tail that is moved to the head; and fewer than 2^64 bytes go through the buffer. -/
def Safe (s : Sys) : WriterOp → Prop
  | .get minBufSize => Rewinds s.r minBufSize → s.r.size * (s.r.roundNum + 1) < 2 ^ 64 ∧
      (s.r.keepTail = true → ∀ j, 0 < j → j < s.r.iovIndex →
        s.r.buf + (s.r.size - s.r.wpos) ≤ (s.r.iov j).base)
  | .write buf data => ∀ j, s.r.iovIndex < j → j ≤ s.r.iovIndexMax →
      buf + data.length ≤ (s.r.iov j).base
  | .set2 => True

/-- The states after safe steps. -/
inductive Reach (start : Sys) : Sys → Prop where
  | refl : Reach start start
  | step {s s' : Sys} (op : WriterOp) (hreach : Reach start s) (hsafe : Safe s op)
      (hstep : s.step op = some s') : Reach start s'

/-- The buffer holds the committed blocks and the one that is written. -/
structure Ok (s : Sys) : Prop where
  store : Store s.r s.past s.cur
  written : ∀ buf data, s.pending = some (buf, data) →
    Accepts s.r buf data ∧ view s.r ⟨buf, data.length⟩ = data

variable {s s' : Sys}

theorem Ok.get (hok : Ok s) {minBufSize : Nat} (hsafe : Safe s (.get minBufSize))
    (hstep : s.get minBufSize = some s') : Ok s' := by
  have hstore := hok.store
  unfold Sys.get at hstep
  split at hstep
  case isTrue => exact absurd hstep nofun
  case isFalse hpending =>
    have hnone : s.pending = none := by simpa using hpending
    have hidle : ∀ {r : RBuf} (buf : Nat) (data : List Byte), s.pending = some (buf, data) →
        Accepts r buf data ∧ view r ⟨buf, data.length⟩ = data := by
      intro r buf data h
      rw [hnone] at h
      exact absurd h nofun
    rcases wbufGet_cases hstore.inv minBufSize with
      ⟨got, hget⟩ | ⟨hrewinds, got, hget⟩ | ⟨got, hget⟩
    · simp only [hget, Option.bind_eq_bind, Option.bind_some, if_true, Option.some.injEq] at hstep
      rw [← hstep]
      exact ⟨hstore, hidle⟩
    · rcases hsafe hrewinds with ⟨hrounds, hkeep⟩
      have hnew := hstore.rewind (hstore.inv.wpos_ne_zero hrewinds) hrounds hkeep
      simp only [hget, Option.bind_eq_bind, Option.bind_some, if_neg (rewind_roundNum_ne s.r),
        Option.some.injEq] at hstep
      rw [← hstep]
      exact ⟨hnew, hidle⟩
    · have hround : (advance s.r).roundNum = s.r.roundNum := rfl
      simp only [hget, Option.bind_eq_bind, Option.bind_some, if_pos hround, Option.some.injEq]
        at hstep
      rw [← hstep]
      exact ⟨hstore.advance, hidle⟩

theorem Ok.write (hok : Ok s) {buf : Nat} {data : List Byte} (hsafe : Safe s (.write buf data))
    (hstep : s.write buf data = some s') : Ok s' := by
  have hstore := hok.store
  unfold Sys.write at hstep
  split at hstep
  case isTrue => exact absurd hstep nofun
  case isFalse hlegal =>
    rw [not_or, not_not] at hlegal
    rcases hlegal.2 with ⟨hmin, hbase, hend⟩
    have hmem := hstore.inv.mem
    have hhead := hstore.inv.base_ge s.r.iovIndex (Nat.le_refl _)
    have hfits : buf - s.r.buf + data.length ≤ s.r.mem.length := by omega
    rw [Option.some.injEq] at hstep
    rw [← hstep]
    refine ⟨hstore.write hbase hend hsafe, fun buf' data' hpending => ?_⟩
    have hpair := Option.some.inj hpending
    rw [Prod.mk.injEq] at hpair
    rw [← hpair.1, ← hpair.2]
    exact ⟨⟨hmin, hbase, hend⟩, take_drop_splice hfits⟩

theorem Ok.set2 (hok : Ok s) (hstep : s.set2 = some s') : Ok s' := by
  have hstore := hok.store
  have haddr := hstore.addr
  unfold Sys.set2 at hstep
  cases hpending : s.pending with
  | none =>
    rw [hpending] at hstep
    exact absurd hstep nofun
  | some block =>
    rcases block with ⟨buf, data⟩
    rcases hok.written buf data hpending with ⟨⟨hmin, hbase, hend⟩, hview⟩
    rw [hpending] at hstep
    simp only [Option.bind_eq_bind, Option.bind_some] at hstep
    rw [wbufSet2_eq hstore.inv (by omega), if_neg (by omega)] at hstep
    simp only [Option.bind_some, if_true, Option.some.injEq] at hstep
    rw [← hstep]
    exact ⟨hstore.commit2 hmin hbase hend hview, nofun⟩

theorem Reach.ok {start : Sys} (hstart : Ok start) (hreach : Reach start s) : Ok s := by
  induction hreach with
  | refl => exact hstart
  | step op _ hsafe hstep ih =>
    cases op with
    | get minBufSize => exact ih.get hsafe hstep
    | write buf data => exact ih.write hsafe hstep
    | set2 => exact ih.set2 hstep

/-- Several steps of the writer. -/
def run (s : Sys) (ops : List WriterOp) : Option Sys := ops.foldlM step s

/-- The writer with its first room and nothing committed. -/
def first (r : RBuf) : Sys := ⟨r, [], [], none⟩

theorem ok_first {buf minBlockSize minBufSize : Nat} {mem : List Byte} {keepTail : Bool}
    {r start : RBuf} {got : Nat × Nat} (hbuf : 2 ^ 12 ≤ buf) (haddr : buf + mem.length < 2 ^ 63)
    (hmin : minBlockSize ≤ mem.length) (halloc : alloc buf mem minBlockSize keepTail = some r)
    (hget : wbufGet r minBufSize = some (some got, start)) : Ok (first start) := by
  have haddr' : buf + mem.length < 2 ^ 64 := by omega
  have hinv := inv_first hbuf haddr' hmin halloc hget
  have hstart := wbufGet_first hbuf haddr' hmin halloc hget
  rcases alloc_eq halloc with ⟨-, hr⟩
  have hempty := advance_iov_self r
  subst hstart
  subst hr
  refine ⟨⟨hinv, haddr, ?_, rfl, ?_, rfl, fun _ => Nat.le_refl _, nofun,
    fun front old (hpast : [] = front ++ [old]) => absurd hpast.symm (by simp)⟩, nofun⟩
  · exact congrArg IoVec.len hempty
  · show mem.length * 0 < 2 ^ 64
    rw [Nat.mul_zero]
    exact Nat.two_pow_pos _

end Sys

end RingBuf
