import Liblcb.Utils.RingBufSize

/-!
# What `r_buf_data_get` reports

The regions that `r_buf_data_get` returns and the size that it reports belong together when the
first block is smaller than the size that is asked for, and what is left behind the previous round
is either nothing or more than the first block of the current one.
-/

namespace RingBuf

open Mem Buffer

variable {r r' : RBuf} {rpos p : RPos}

/-! ## The regions -/

/-- How many entries do not start where the one before ends. -/
def joints : IoVec → List IoVec → Nat
  | _, [] => 0
  | prev, e :: iov => (if prev.base + prev.len = e.base then 0 else 1) + joints e iov

theorem joints_joined {prev e : IoVec} (h : prev.base + prev.len = e.base) (iov : List IoVec) :
    joints prev (e :: iov) = joints e iov := by
  rw [joints, if_pos h, Nat.zero_add]

theorem joints_apart {prev e : IoVec} (h : prev.base + prev.len ≠ e.base) (iov : List IoVec) :
    joints prev (e :: iov) = joints e iov + 1 := by
  rw [joints, if_neg h, Nat.add_comm]

/-- The size of the regions together. -/
def lens (iov : List IoVec) : Nat := (iov.map IoVec.len).sum

theorem lens_cons (e : IoVec) (iov : List IoVec) : lens (e :: iov) = e.len + lens iov := rfl

theorem lens_append (iov iov' : List IoVec) : lens (iov ++ iov') = lens iov + lens iov' := by
  unfold lens
  rw [List.map_append, List.sum_append]

theorem aggregateLoop_cons (haddr : r.buf + r.size < 2 ^ 64) {prev cur e : IoVec} {iov : List IoVec}
    {room dataSize : Nat} (hcur : Inside r cur) (hend : prev.base + prev.len = cur.base + cur.len)
    (he : Inside r e) :
    aggregateLoop (e :: iov) prev cur room dataSize =
      if room = 0 ∨ dataSize < e.len then ([cur], dataSize)
      else if prev.base + prev.len = e.base then
        aggregateLoop iov e ⟨cur.base, cur.len + e.len⟩ room (dataSize - e.len)
      else
        (cur :: (aggregateLoop iov e e (room - 1) (dataSize - e.len)).1,
          (aggregateLoop iov e e (room - 1) (dataSize - e.len)).2) := by
  have hin := hcur.le
  have hmod : (prev.base + prev.len) % 2 ^ 64 = prev.base + prev.len := Nat.mod_eq_of_lt (by omega)
  have hle := he.le
  rw [aggregateLoop, hmod]
  by_cases hstop : room = 0 ∨ dataSize < e.len
  · rw [if_pos hstop, if_pos hstop]
  · rw [if_neg hstop, if_neg hstop]
    by_cases hmerge : prev.base + prev.len = e.base
    · have hlen : (cur.len + e.len) % 2 ^ 64 = cur.len + e.len := Nat.mod_eq_of_lt (by omega)
      rw [if_pos hmerge, if_pos hmerge, hlen]
    · rw [if_neg hmerge, if_neg hmerge]

theorem Inside.grow {cur e : IoVec} (hcur : Inside r cur) (he : Inside r e)
    (hmerge : cur.base + cur.len = e.base) : Inside r ⟨cur.base, cur.len + e.len⟩ := by
  have hle := he.le
  refine ⟨hcur.ge, ?_⟩
  show cur.base + (cur.len + e.len) ≤ _
  omega

/-- What the loop takes: a number of entries, in at most as many regions as there is room for.  The
sizes of the regions and what is left make up the size. -/
structure LoopTakes (r : RBuf) (iov : List IoVec) (cur : IoVec) (room dataSize k : Nat)
    (res : List IoVec × Nat) : Prop where
  views : views r res.1 = view r cur ++ views r (iov.take k)
  size : lens res.1 = cur.len + lens (iov.take k)
  left : res.2 + lens (iov.take k) = dataSize
  inside : ∀ e ∈ res.1, Inside r e
  length : res.1.length ≤ room + 1
  ne : res.1 ≠ []

theorem aggregateLoop_takes (haddr : r.buf + r.size < 2 ^ 64) (iov : List IoVec) :
    ∀ prev cur room dataSize, Inside r cur → prev.base + prev.len = cur.base + cur.len →
      (∀ e ∈ iov, Inside r e) →
      ∃ k, LoopTakes r iov cur room dataSize k (aggregateLoop iov prev cur room dataSize) := by
  have hstopped : ∀ {iov cur room dataSize}, Inside r cur →
      LoopTakes r iov cur room dataSize 0 ([cur], dataSize) := by
    intro iov cur room dataSize hcur
    refine ⟨by simp [RingBuf.views], by simp [lens], by simp [lens], fun e he => ?_,
      Nat.le_add_left 1 room, List.cons_ne_nil cur []⟩
    rw [List.mem_singleton.mp he]
    exact hcur
  induction iov with
  | nil => exact fun prev cur room dataSize hcur _ _ => ⟨0, hstopped hcur⟩
  | cons e iov ih =>
    intro prev cur room dataSize hcur hend hinside
    have he := hinside e List.mem_cons_self
    have hrest : ∀ e' ∈ iov, Inside r e' := fun e' he' => hinside e' (List.mem_cons_of_mem _ he')
    rw [aggregateLoop_cons haddr hcur hend he]
    by_cases hstop : room = 0 ∨ dataSize < e.len
    · rw [if_pos hstop]
      exact ⟨0, hstopped hcur⟩
    · rw [if_neg hstop]
      rw [not_or] at hstop
      -- the region grows by an entry that follows it
      by_cases hmerge : prev.base + prev.len = e.base
      · have hnext : cur.base + cur.len = e.base := by omega
        rw [if_pos hmerge]
        rcases ih e ⟨cur.base, cur.len + e.len⟩ room (dataSize - e.len) (hcur.grow he hnext)
          (by show _ = cur.base + (cur.len + e.len); omega) hrest with ⟨k, htakes⟩
        refine ⟨k + 1, ?_, ?_, ?_, htakes.inside, htakes.length, htakes.ne⟩
        · rw [htakes.views, view_append hcur.ge, hnext, List.take_succ_cons]
          simp [RingBuf.views]
        · have hsize := htakes.size
          rw [List.take_succ_cons, lens_cons, hsize]
          exact Nat.add_assoc _ _ _
        · have hleft := htakes.left
          rw [List.take_succ_cons, lens_cons]
          omega
      · rw [if_neg hmerge]
        rcases ih e e (room - 1) (dataSize - e.len) he rfl hrest with ⟨k, htakes⟩
        refine ⟨k + 1, ?_, ?_, ?_, fun e' he' => ?_, ?_, List.cons_ne_nil _ _⟩
        · have hviews := htakes.views
          unfold RingBuf.views at hviews ⊢
          rw [List.flatMap_cons, hviews, List.take_succ_cons, List.flatMap_cons]
        · have hsize := htakes.size
          rw [List.take_succ_cons, lens_cons, lens_cons, hsize]
        · have hleft := htakes.left
          rw [List.take_succ_cons, lens_cons]
          omega
        · rcases List.mem_cons.mp he' with rfl | hmem
          · exact hcur
          · exact htakes.inside e' hmem
        · have hlength := htakes.length
          show _ + 1 ≤ _
          omega

theorem aggregateLoop_left_le (haddr : r.buf + r.size < 2 ^ 64) {iov : List IoVec}
    {prev cur : IoVec} (hcur : Inside r cur) (hend : prev.base + prev.len = cur.base + cur.len)
    (hinside : ∀ e ∈ iov, Inside r e) (room dataSize : Nat) :
    (aggregateLoop iov prev cur room dataSize).2 ≤ dataSize := by
  rcases aggregateLoop_takes haddr iov prev cur room dataSize hcur hend hinside with ⟨k, htakes⟩
  have hleft := htakes.left
  omega

theorem aggregateLoop_fill (haddr : r.buf + r.size < 2 ^ 64) (iov : List IoVec) :
    ∀ prev cur room dataSize k, Inside r cur → prev.base + prev.len = cur.base + cur.len →
      (∀ e ∈ iov, Inside r e) → k < iov.length → lens (iov.take (k + 1)) = dataSize →
      joints prev (iov.take k) < room → (aggregateLoop iov prev cur room dataSize).2 = 0 := by
  induction iov with
  | nil => exact fun prev cur room dataSize k _ _ _ hk => absurd hk (Nat.not_lt_zero _)
  | cons e iov ih =>
    intro prev cur room dataSize k hcur hend hinside hk hfill hroom
    have he := hinside e List.mem_cons_self
    have hrest : ∀ e' ∈ iov, Inside r e' := fun e' he' => hinside e' (List.mem_cons_of_mem _ he')
    have hgrow : ∀ hmerge : prev.base + prev.len = e.base,
        Inside r ⟨cur.base, cur.len + e.len⟩ ∧
          e.base + e.len = cur.base + (cur.len + e.len) := by
      intro hmerge
      exact ⟨hcur.grow he (by omega), by omega⟩
    rw [List.take_succ_cons, lens_cons] at hfill
    rw [aggregateLoop_cons haddr hcur hend he, if_neg (by omega)]
    cases k with
    | zero =>
      -- the block takes all that is left
      rw [List.take_zero] at hfill
      have hzero : dataSize - e.len = 0 := by
        rw [← hfill]
        exact Nat.add_sub_cancel_left _ _
      rw [hzero]
      by_cases hmerge : prev.base + prev.len = e.base
      · rw [if_pos hmerge]
        rcases hgrow hmerge with ⟨hin, heq⟩
        exact Nat.le_zero.mp (aggregateLoop_left_le haddr hin heq hrest room 0)
      · rw [if_neg hmerge]
        exact Nat.le_zero.mp (aggregateLoop_left_le haddr he rfl hrest (room - 1) 0)
    | succ k =>
      have hk' : k < iov.length := Nat.lt_of_succ_lt_succ hk
      have hfill' : lens (iov.take (k + 1)) = dataSize - e.len := by omega
      rw [List.take_succ_cons] at hroom
      by_cases hmerge : prev.base + prev.len = e.base
      · rw [joints_joined hmerge] at hroom
        rw [if_pos hmerge]
        rcases hgrow hmerge with ⟨hin, heq⟩
        exact ih e _ room _ k hin heq hrest hk' hfill' hroom
      · rw [joints_apart hmerge] at hroom
        rw [if_neg hmerge]
        exact ih e e (room - 1) _ k he rfl hrest hk' hfill' (by omega)

theorem aggregateLoop_all (haddr : r.buf + r.size < 2 ^ 64) (iov : List IoVec) :
    ∀ prev cur room dataSize, Inside r cur → prev.base + prev.len = cur.base + cur.len →
      (∀ e ∈ iov, Inside r e) → lens iov ≤ dataSize → joints prev iov < room →
      views r (aggregateLoop iov prev cur room dataSize).1 = view r cur ++ views r iov ∧
        (aggregateLoop iov prev cur room dataSize).1.length = joints prev iov + 1 ∧
        (aggregateLoop iov prev cur room dataSize).2 + lens iov = dataSize := by
  induction iov with
  | nil =>
    intro prev cur room dataSize _ _ _ _ _
    exact ⟨by simp [aggregateLoop, views], rfl, rfl⟩
  | cons e iov ih =>
    intro prev cur room dataSize hcur hend hinside hfits hroom
    have he := hinside e List.mem_cons_self
    have hrest : ∀ e' ∈ iov, Inside r e' := fun e' he' => hinside e' (List.mem_cons_of_mem _ he')
    have hsplit : views r (e :: iov) = view r e ++ views r iov := List.flatMap_cons
    rw [lens_cons] at hfits
    have hfits' : lens iov ≤ dataSize - e.len := by omega
    rw [aggregateLoop_cons haddr hcur hend he, if_neg (by omega), lens_cons, hsplit]
    -- The entry continues the region before it, or opens one.
    by_cases hmerge : prev.base + prev.len = e.base
    · have hnext : cur.base + cur.len = e.base := by omega
      rw [joints_joined hmerge] at hroom ⊢
      rw [if_pos hmerge]
      rcases ih e ⟨cur.base, cur.len + e.len⟩ room (dataSize - e.len) (hcur.grow he hnext)
        (by show _ = cur.base + (cur.len + e.len); omega) hrest hfits' hroom with
        ⟨hviews, hlength, hleft⟩
      refine ⟨?_, hlength, by omega⟩
      rw [hviews, view_append hcur.ge, hnext]
      exact List.append_assoc _ _ _
    · rw [joints_apart hmerge] at hroom ⊢
      rw [if_neg hmerge]
      rcases ih e e (room - 1) (dataSize - e.len) he rfl hrest hfits' (by omega) with
        ⟨hviews, hlength, hleft⟩
      refine ⟨?_, ?_, by omega⟩
      · unfold views at hviews ⊢
        rw [List.flatMap_cons, hviews]
      · show _ + 1 = _
        omega

/-- What a call of `iovec_aggregate_ex` takes when it delivers something. -/
structure Takes (r : RBuf) (first : IoVec) (rest : List IoVec) (off dataSize retCnt : Nat)
    (res : List IoVec × Nat) : Prop where
  views : views r res.1 <+: (views r (first :: rest)).drop off
  left : lens res.1 + res.2 = dataSize
  inside : ∀ e ∈ res.1, Inside r e
  length : res.1.length ≤ retCnt
  ne : res.1 ≠ []
  first : first.len - off ≤ lens res.1

section Aggregate

variable (haddr : r.buf + r.size < 2 ^ 64) (hmem : r.mem.length = r.size) {first : IoVec}
  {rest : List IoVec} (hinside : ∀ e ∈ first :: rest, Inside r e) {off dataSize retCnt : Nat}
  (hoff : off ≤ first.len) (hsize : first.len - off < dataSize)
include haddr hinside hoff hsize

theorem iovecAggregateEx_cons (hcnt : 0 < retCnt) (hrest : rest = [] → off < first.len) :
    iovecAggregateEx (first :: rest) dataSize off retCnt =
      aggregateLoop rest first ⟨first.base + off, first.len - off⟩ (retCnt - 1)
        (dataSize - (first.len - off)) := by
  have hfirst := hinside first List.mem_cons_self
  have hle := hfirst.le
  have hsub : sub first.len off = first.len - off := sub_of_le (by omega) hoff
  have hbase : (first.base + off) % 2 ^ 64 = first.base + off := Nat.mod_eq_of_lt (by omega)
  have hgo : ¬(retCnt = 0 ∨ dataSize = 0 ∨ dataSize ≤ first.len - off ∨
      (rest = [] ∧ first.len - off = 0)) := by
    rintro (h | h | h | ⟨h, hzero⟩)
    · omega
    · omega
    · omega
    · have hlt := hrest h
      omega
  unfold iovecAggregateEx
  simp only [hsub, hbase]
  exact if_neg hgo

omit haddr hsize in
theorem inside_first : Inside r ⟨first.base + off, first.len - off⟩ ∧
    first.base + first.len = first.base + off + (first.len - off) := by
  have hfirst := hinside first List.mem_cons_self
  have hge := hfirst.ge
  have hle := hfirst.le
  exact ⟨⟨by show r.buf ≤ first.base + off; omega,
    by show first.base + off + (first.len - off) ≤ _; omega⟩, by omega⟩

theorem iovecAggregateEx_second {e : IoVec} {rest' : List IoVec} (hrest : rest = e :: rest')
    (hcnt : 1 < retCnt) (hfits : first.len - off + e.len ≤ dataSize) :
    (iovecAggregateEx (first :: rest) dataSize off retCnt).2 ≤
      dataSize - (first.len - off) - e.len := by
  rcases inside_first hinside hoff with ⟨hstart, hend⟩
  have htail : ∀ e' ∈ rest', Inside r e' := fun e' he' =>
    hinside e' (List.mem_cons_of_mem _ (hrest ▸ List.mem_cons_of_mem _ he'))
  have he : Inside r e := hinside e (List.mem_cons_of_mem _ (hrest ▸ List.mem_cons_self))
  rw [iovecAggregateEx_cons haddr hinside hoff hsize (by omega) (hrest ▸ nofun), hrest,
    aggregateLoop_cons haddr hstart hend he, if_neg (by omega)]
  by_cases hmerge : first.base + first.len = e.base
  · have hnext : first.base + off + (first.len - off) = e.base := by omega
    rw [if_pos hmerge]
    exact aggregateLoop_left_le haddr (hstart.grow he hnext)
      (by show _ = first.base + off + (first.len - off + e.len); omega) htail _ _
  · rw [if_neg hmerge]
    exact aggregateLoop_left_le haddr he rfl htail _ _

theorem iovecAggregateEx_fill {k : Nat} (hk : k < rest.length)
    (hfill : first.len - off + lens (rest.take (k + 1)) = dataSize)
    (hroom : joints first (rest.take k) + 1 < retCnt) :
    (iovecAggregateEx (first :: rest) dataSize off retCnt).2 = 0 := by
  rcases inside_first hinside hoff with ⟨hstart, hend⟩
  have hrest : rest = [] → off < first.len := by
    intro h
    rw [h] at hk
    exact absurd hk (Nat.not_lt_zero _)
  rw [iovecAggregateEx_cons haddr hinside hoff hsize (by omega) hrest]
  exact aggregateLoop_fill haddr rest first _ _ _ k hstart hend
    (fun e he => hinside e (List.mem_cons_of_mem _ he)) hk (by omega) (by omega)

include hmem

theorem iovecAggregateEx_takes (hcnt : 0 < retCnt) (hrest : rest = [] → off < first.len) :
    Takes r first rest off dataSize retCnt
      (iovecAggregateEx (first :: rest) dataSize off retCnt) := by
  rcases inside_first hinside hoff with ⟨hstart, hend⟩
  rcases aggregateLoop_takes haddr rest first _ (retCnt - 1) (dataSize - (first.len - off)) hstart
    hend fun e he => hinside e (List.mem_cons_of_mem _ he) with ⟨k, htakes⟩
  rw [iovecAggregateEx_cons haddr hinside hoff hsize hcnt hrest]
  have hviews := htakes.views
  have hfirst := hinside first List.mem_cons_self
  have hlen := length_view hmem hfirst
  have hsum := htakes.size
  have hleft := htakes.left
  have hlength := htakes.length
  refine ⟨?_, ?_, htakes.inside, by omega, htakes.ne, ?_⟩
  · have hprefix : views r (rest.take k) <+: views r rest := by
      unfold views
      rw [List.flatMap_def, List.flatMap_def, List.map_take]
      exact (List.take_prefix k _).flatten
    have hsplit : views r (first :: rest) = view r first ++ views r rest := List.flatMap_cons
    rw [hviews, view_drop hfirst.ge, hsplit, List.drop_append_of_le_length (by omega)]
    exact (List.prefix_append_right_inj _).mpr hprefix
  · rw [hsum]
    show first.len - off + _ + _ = _
    omega
  · rw [hsum]
    exact Nat.le_add_right _ _

theorem iovecAggregateEx_all (hfits : first.len - off + lens rest ≤ dataSize)
    (hroom : joints first rest + 1 < retCnt) (hsome : 0 < first.len - off + lens rest) :
    views r (iovecAggregateEx (first :: rest) dataSize off retCnt).1 =
        (views r (first :: rest)).drop off ∧
      (iovecAggregateEx (first :: rest) dataSize off retCnt).1.length = joints first rest + 1 ∧
      (iovecAggregateEx (first :: rest) dataSize off retCnt).2 + (first.len - off + lens rest) =
        dataSize := by
  rcases inside_first hinside hoff with ⟨hstart, hend⟩
  have hrest : rest = [] → off < first.len := by
    intro h
    rw [h] at hsome
    have hzero : lens [] = 0 := rfl
    omega
  rw [iovecAggregateEx_cons haddr hinside hoff hsize (by omega) hrest]
  rcases aggregateLoop_all haddr rest first ⟨first.base + off, first.len - off⟩ (retCnt - 1)
    (dataSize - (first.len - off)) hstart hend
    (fun e he => hinside e (List.mem_cons_of_mem _ he)) (by omega) (by omega) with
    ⟨hviews, hlength, hleft⟩
  have hfirst := hinside first List.mem_cons_self
  have hlen := length_view hmem hfirst
  have hsplit : views r (first :: rest) = view r first ++ views r rest := List.flatMap_cons
  refine ⟨?_, hlength, by omega⟩
  rw [hviews, view_drop hfirst.ge, hsplit, List.drop_append_of_le_length (by omega)]

end Aggregate

/-! ## Runs of the writer -/

/-- The buffer with the blocks committed so far, round by round. -/
structure Writer where
  r : RBuf
  past : List (List (List Byte))
  cur : List (List Byte)

/-- What the writer does: besides its calls it writes into the buffer. -/
inductive WriterCall where
  | get (minBufSize : Nat)
  | write (buf : Nat) (data : List Byte)
  | set (offset bufSize : Nat)
  | set2 (buf bufSize : Nat)

namespace Writer

/-- The state after a commit: a block that is accepted takes the current entry. -/
def booked (s : Writer) (ret : Ret) (r : RBuf) : Writer :=
  { s with
    r
    cur :=
      if ret = .ok then s.cur.take s.r.iovIndex ++ [view r (r.iov s.r.iovIndex)] else s.cur }

/-- A step of the writer. -/
def step (s : Writer) : WriterCall → Option Writer
  | .get minBufSize => do
    let (_, r) ← wbufGet s.r minBufSize
    if r.roundNum = s.r.roundNum then some { s with r }
    else some { r, past := s.past ++ [s.cur], cur := [] }
  | .write buf data =>
    if s.r.buf ≤ buf ∧ buf + data.length ≤ s.r.buf + s.r.size then
      some { s with r := { s.r with mem := splice s.r.mem (buf - s.r.buf) data } }
    else none
  | .set offset bufSize => do
    let (ret, r) ← wbufSet s.r offset bufSize
    some (s.booked ret r)
  | .set2 buf bufSize => do
    let (ret, r) ← wbufSet2 s.r buf bufSize
    some (s.booked ret r)

/-- The blocks that the check by index lets a reader have. -/
def Live (r : RBuf) (j : Nat) : Prop := j < nextIndex r ∨ r.iovIndex < j ∧ j ≤ r.iovIndexMax

/-- No write, and no tail that is moved to the head, overwrites a block that a reader may still
have.  A block that is committed ends in the buffer, with its offset. -/
def Safe (s : Writer) : WriterCall → Prop
  | .get minBufSize => Rewinds s.r minBufSize → s.r.keepTail = true →
      ∀ j, 0 < j → j < nextIndex s.r → s.r.buf + (s.r.size - s.r.wpos) ≤ (s.r.iov j).base
  | .write buf data => ∀ j, Live s.r j →
      (s.r.iov j).base + (s.r.iov j).len ≤ buf ∨ buf + data.length ≤ (s.r.iov j).base
  | .set offset bufSize => Fits s.r (.set offset bufSize)
  | .set2 buf bufSize => Fits s.r (.set2 buf bufSize)

/-- The states after safe steps. -/
inductive Reach (start : Writer) : Writer → Prop where
  | refl : Reach start start
  | step {s s' : Writer} (call : WriterCall) (hreach : Reach start s) (hsafe : Safe s call)
      (hstep : s.step call = some s') : Reach start s'

/-- The writer with its first room and nothing committed. -/
def first (r : RBuf) : Writer := ⟨r, [], []⟩

/-- The round before the current one. -/
def old (s : Writer) : List (List Byte) := s.past.getLastD []

/-- The blocks committed at a position and after it. -/
def after (s : Writer) (rpos : RPos) : List (List Byte) :=
  if rpos.roundNum = s.r.roundNum then s.cur.drop rpos.iovIndex
  else s.old.drop rpos.iovIndex ++ s.cur

/-- The block at a position. -/
def blockAt (s : Writer) (rpos : RPos) : List Byte :=
  (if rpos.roundNum = s.r.roundNum then s.cur else s.old).getD rpos.iovIndex []

/-- The bytes committed after a position. -/
def dataAfter (s : Writer) (rpos : RPos) : List Byte := (s.after rpos).flatten.drop rpos.iovOff

end Writer

/-- The entries describe the committed blocks.  Of the previous round, the entries above the current
index are still there. -/
structure Held (r : RBuf) (old cur : List (List Byte)) : Prop where
  inv : Inv r
  index : nextIndex r = cur.length
  maxIndex : r.iovIndexMax + 1 = max 1 (max old.length cur.length)
  holds : ∀ j block, cur[j]? = some block → HoldsAt r j block
  olds : ∀ j block, r.iovIndex < j → old[j]? = some block → HoldsAt r j block

section Held

variable {old cur : List (List Byte)} (hheld : Held r old cur)
include hheld

theorem Held.advance : Held (advance r) old cur := by
  have hinv := hheld.inv
  have hindex := hheld.index
  have hnext := nextIndex_le_succ r
  have hempty : nextIndex (RingBuf.advance r) = nextIndex r := by
    refine if_pos ?_
    rw [advance_iov_self]
  have hiov : ∀ j, j ≠ nextIndex r → (RingBuf.advance r).iov j = r.iov j := fun j hj =>
    Function.update_of_ne hj _ _
  refine ⟨hinv.advance, hempty.trans hindex, hheld.maxIndex, fun j block hblock => ?_,
    fun j block hj hblock => ?_⟩
  · have hlt : j < cur.length := (List.getElem?_eq_some_iff.mp hblock).1
    exact (hheld.holds j block hblock).same rfl rfl rfl (hiov j (by omega))
  · have hgt : nextIndex r < j := hj
    have hle : r.iovIndex ≤ nextIndex r := by
      unfold nextIndex
      split <;> omega
    exact (hheld.olds j block (by omega) hblock).same rfl rfl rfl (hiov j (by omega))

theorem Held.rewind (hwpos : r.wpos ≠ 0)
    (hkeep : r.keepTail = true → ∀ j, 0 < j → j < nextIndex r →
      r.buf + (r.size - r.wpos) ≤ (r.iov j).base) : Held (rewind r) cur [] := by
  have hinv := hheld.inv
  have hindex := hheld.index
  have hpos := hinv.nextIndex_pos hwpos
  have hempty : nextIndex (RingBuf.rewind r) = 0 := by
    refine if_pos ?_
    show ((RingBuf.rewind r).iov 0).len = 0
    rw [rewind_iov_zero]
  have hiov : ∀ j, 0 < j → j < nextIndex r → (RingBuf.rewind r).iov j = r.iov j := by
    intro j hj hlt
    show Function.update (rewindIov r) 0 _ j = r.iov j
    rw [Function.update_of_ne (Nat.ne_of_gt hj)]
    unfold rewindIov
    unfold nextIndex at hlt
    split
    case isTrue => rfl
    case isFalse hlen =>
      rw [if_neg hlen] at hlt
      exact Function.update_of_ne (Nat.ne_of_lt hlt) _ _
  refine ⟨hinv.rewind, hempty, ?_, nofun, fun j block hj hblock => ?_⟩
  · show nextIndex r - 1 + 1 = max 1 (max cur.length 0)
    omega
  · have hj' : 0 < j := hj
    have hlt : j < nextIndex r := by
      rw [hindex]
      exact (List.getElem?_eq_some_iff.mp hblock).1
    exact (hheld.holds j block hblock).rewind hinv (hiov j hj' hlt) fun htail =>
      hkeep htail j hj' hlt

theorem Held.write {buf : Nat} {data : List Byte} (hbuf : r.buf ≤ buf)
    (hend : buf + data.length ≤ r.buf + r.size)
    (hsafe : ∀ j, Writer.Live r j →
      (r.iov j).base + (r.iov j).len ≤ buf ∨ buf + data.length ≤ (r.iov j).base) :
    Held { r with mem := splice r.mem (buf - r.buf) data } old cur := by
  have hinv := hheld.inv
  have hmem := hinv.mem
  have hindex := hheld.index
  have hmax := hheld.maxIndex
  have hfits : buf - r.buf + data.length ≤ r.mem.length := by omega
  have hinv' : Inv { r with mem := splice r.mem (buf - r.buf) data } :=
    ⟨hinv.min_pos, hinv.min_le, hinv.buf_pos, hinv.addr, hinv.count,
      (length_splice hfits).trans hmem, hinv.wpos, hinv.max, hinv.head, hinv.chain, hinv.blocks,
      hinv.cur, hinv.cur_len, hinv.empty⟩
  have hkept : ∀ {j block}, Writer.Live r j → HoldsAt r j block →
      HoldsAt { r with mem := splice r.mem (buf - r.buf) data } j block := by
    intro j block hlive hholds
    have hge := hholds.inside.ge
    refine hholds.write rfl rfl rfl rfl hfits ?_
    rcases hsafe j hlive with hbelow | habove
    · exact .inl (by omega)
    · exact .inr (by omega)
  refine ⟨hinv', hindex, hmax, fun j block hblock => ?_, fun j block hj hblock => ?_⟩
  · have hlt : j < cur.length := (List.getElem?_eq_some_iff.mp hblock).1
    exact hkept (.inl (by omega)) (hheld.holds j block hblock)
  · have hlt : j < old.length := (List.getElem?_eq_some_iff.mp hblock).1
    have hgt : r.iovIndex < j := hj
    exact hkept (.inr ⟨hgt, by omega⟩) (hheld.olds j block hj hblock)

theorem Held.commit {e : IoVec} {wpos : Nat} {frag : Bool}
    (hinv : Inv (commit r e wpos frag)) (hlen : e.len ≠ 0) (he : Inside r e) :
    Held (commit r e wpos frag) old (cur.take r.iovIndex ++ [view r e]) := by
  have hindex := hheld.index
  have hmax := hheld.maxIndex
  have hnext := nextIndex_le_succ r
  have hge : r.iovIndex ≤ nextIndex r := by
    unfold nextIndex
    split <;> omega
  have htake : (cur.take r.iovIndex).length = r.iovIndex := by
    rw [List.length_take]
    omega
  have hlength : (cur.take r.iovIndex ++ [view r e]).length = r.iovIndex + 1 := by
    rw [List.length_append, htake]
    rfl
  refine ⟨hinv, (nextIndex_commit hlen wpos frag).trans hlength.symm, ?_, fun j block hblock => ?_,
    fun j block hj hblock => ?_⟩
  · rw [hlength]
    show max r.iovIndexMax r.iovIndex + 1 = max 1 (max old.length (r.iovIndex + 1))
    omega
  · by_cases hj : j < r.iovIndex
    · rw [List.getElem?_append_left (by omega), List.getElem?_take_of_lt hj] at hblock
      exact (hheld.holds j block hblock).same rfl rfl rfl (commit_iov_of_ne (by omega))
    · have hlt := (List.getElem?_eq_some_iff.mp hblock).1
      have hat : j = r.iovIndex := by omega
      rw [hat, List.getElem?_append_right (by omega), htake, Nat.sub_self] at hblock
      have hblock' : view r e = block := Option.some.inj hblock
      rw [hat, ← hblock']
      refine ⟨?_, ?_⟩
      · rw [commit_iov_self]
        exact ⟨he.ge, he.le⟩
      · rw [commit_iov_self]
        rfl
  · have hgt : r.iovIndex < j := hj
    exact (hheld.olds j block hgt hblock).same rfl rfl rfl (commit_iov_of_ne (by omega))

end Held

theorem wbufSet_cases (hinv : Inv r) {offset bufSize : Nat} (hfits : Fits r (.set offset bufSize)) :
    wbufSet r offset bufSize = some (.einval, r) ∨
      ∃ e wpos frag, wbufSet r offset bufSize = some (.ok, commit r e wpos frag) ∧
        Inv (commit r e wpos frag) ∧ e.len ≠ 0 ∧ Inside r e := by
  have haddr := hinv.addr
  have hwpos := hinv.wpos
  have hcur := hinv.cur
  have hmin := hinv.min_pos
  have hhead := hinv.base_ge r.iovIndex (Nat.le_refl _)
  have hfits' : bufSize - offset ≤ r.size - r.wpos → bufSize ≤ r.size - r.wpos := hfits
  by_cases hroom : bufSize - offset ≤ r.size - r.wpos
  · have hle := hfits' hroom
    rw [wbufSet_eq hinv hle]
    by_cases hbad : bufSize ≤ offset ∨ bufSize - offset < r.minBlockSize
    · rw [if_pos hbad]
      exact .inl rfl
    · rw [if_neg hbad]
      rw [not_or] at hbad
      refine .inr ⟨_, _, _, rfl, hinv.commit _ (Nat.le_add_right _ _) (Nat.le_of_not_lt hbad.2) ?_
        (by omega), by show bufSize - offset ≠ 0; omega, ?_, ?_⟩
      · show (r.iov r.iovIndex).base + offset + (bufSize - offset) ≤ r.buf + (r.wpos + bufSize)
        omega
      · show r.buf ≤ (r.iov r.iovIndex).base + offset
        omega
      · show (r.iov r.iovIndex).base + offset + (bufSize - offset) ≤ r.buf + r.size
        omega
  · have hfree : sub r.size r.wpos = r.size - r.wpos := sub_of_le (by omega) hwpos
    left
    unfold wbufSet
    split
    · rfl
    · rw [hfree]
      exact if_pos (.inr (Nat.lt_of_not_le hroom))

namespace Writer

variable {s s' : Writer}

/-- The entries describe the blocks. -/
def Ok (s : Writer) : Prop := Held s.r s.old s.cur

theorem Ok.get (hok : s.Ok) {minBufSize : Nat} (hsafe : Safe s (.get minBufSize))
    (hstep : s.step (.get minBufSize) = some s') : s'.Ok := by
  have hinv := Held.inv hok
  unfold step at hstep
  rcases wbufGet_cases hinv minBufSize with ⟨got, hget⟩ | ⟨hrewinds, got, hget⟩ | ⟨got, hget⟩
  · simp only [hget, Option.bind_eq_bind, Option.bind_some, if_true, Option.some.injEq] at hstep
    rw [← hstep]
    exact hok
  · simp only [hget, Option.bind_eq_bind, Option.bind_some, if_neg (rewind_roundNum_ne s.r),
      Option.some.injEq] at hstep
    rw [← hstep]
    unfold Ok old
    rw [List.getLastD_concat]
    exact Held.rewind hok (hinv.wpos_ne_zero hrewinds) (hsafe hrewinds)
  · have hround : (advance s.r).roundNum = s.r.roundNum := rfl
    simp only [hget, Option.bind_eq_bind, Option.bind_some, if_pos hround, Option.some.injEq]
      at hstep
    rw [← hstep]
    exact Held.advance hok

theorem Ok.write (hok : s.Ok) {buf : Nat} {data : List Byte} (hsafe : Safe s (.write buf data))
    (hstep : s.step (.write buf data) = some s') : s'.Ok := by
  by_cases hin : s.r.buf ≤ buf ∧ buf + data.length ≤ s.r.buf + s.r.size
  · have hwrite : s.step (.write buf data) = some
        { s with r := { s.r with mem := splice s.r.mem (buf - s.r.buf) data } } := if_pos hin
    rw [hwrite, Option.some.injEq] at hstep
    rw [← hstep]
    exact Held.write hok hin.1 hin.2 hsafe
  · have hnone : s.step (.write buf data) = none := if_neg hin
    rw [hnone] at hstep
    exact absurd hstep nofun

theorem Ok.set (hok : s.Ok) {offset bufSize : Nat} (hsafe : Safe s (.set offset bufSize))
    (hstep : s.step (.set offset bufSize) = some s') : s'.Ok := by
  unfold step at hstep
  rcases wbufSet_cases (Held.inv hok) hsafe with hset | ⟨e, wpos, frag, hset, hinv, hlen, he⟩
  · simp only [hset, Option.bind_eq_bind, Option.bind_some, Option.some.injEq] at hstep
    rw [← hstep]
    exact hok
  · simp only [hset, Option.bind_eq_bind, Option.bind_some, Option.some.injEq] at hstep
    rw [← hstep]
    have hnew := Held.commit hok hinv hlen he
    have hself := commit_iov_self s.r e wpos frag
    unfold Ok booked
    rw [if_pos rfl, hself]
    exact hnew

theorem Ok.set2 (hok : s.Ok) {buf bufSize : Nat} (hsafe : Safe s (.set2 buf bufSize))
    (hstep : s.step (.set2 buf bufSize) = some s') : s'.Ok := by
  have hinv := Held.inv hok
  have hmin := hinv.min_pos
  have hhead := hinv.base_ge s.r.iovIndex (Nat.le_refl _)
  unfold step at hstep
  simp only [wbufSet2_eq hinv hsafe] at hstep
  split at hstep
  case isTrue =>
    simp only [Option.bind_eq_bind, Option.bind_some, Option.some.injEq] at hstep
    rw [← hstep]
    exact hok
  case isFalse haccepted =>
    rw [not_or, not_or, Nat.not_lt, Nat.not_lt, Nat.not_lt] at haccepted
    rcases haccepted with ⟨hblock, hbase, hend⟩
    simp only [Option.bind_eq_bind, Option.bind_some, Option.some.injEq] at hstep
    rw [← hstep]
    have hlen : (⟨buf, bufSize⟩ : IoVec).len ≠ 0 := by
      show bufSize ≠ 0
      omega
    have hcommit : Inv (commit s.r ⟨buf, bufSize⟩ (buf + bufSize - s.r.buf)
        (s.r.frag || buf ≠ (s.r.iov s.r.iovIndex).base)) := by
      refine hinv.commit _ hbase hblock ?_ (by omega)
      show buf + bufSize ≤ s.r.buf + (buf + bufSize - s.r.buf)
      omega
    have hnew := (Held.commit hok hcommit hlen ⟨by show s.r.buf ≤ buf; omega, hend⟩).advance
    have hself : (commit2 s.r buf bufSize).iov s.r.iovIndex = ⟨buf, bufSize⟩ := by
      unfold commit2
      rw [advance_iov_of_lt (by rw [nextIndex_commit hlen]; exact Nat.lt_succ_self _),
        commit_iov_self]
    unfold Ok booked
    rw [if_pos rfl, hself]
    exact hnew

theorem Reach.ok {start : Writer} (hstart : start.Ok) (hreach : Reach start s) : s.Ok := by
  induction hreach with
  | refl => exact hstart
  | step call _ hsafe hstep ih =>
    cases call with
    | get minBufSize => exact ih.get hsafe hstep
    | write buf data => exact ih.write hsafe hstep
    | set offset bufSize => exact ih.set hsafe hstep
    | set2 buf bufSize => exact ih.set2 hsafe hstep

theorem ok_first {buf minBlockSize minBufSize : Nat} {mem : List Byte} {keepTail : Bool}
    {r0 start : RBuf} {got : Nat × Nat} (hbuf : 2 ^ 12 ≤ buf) (haddr : buf + mem.length < 2 ^ 64)
    (hmin : minBlockSize ≤ mem.length) (halloc : alloc buf mem minBlockSize keepTail = some r0)
    (hget : wbufGet r0 minBufSize = some (some got, start)) : (first start).Ok := by
  have hinv := inv_first hbuf haddr hmin halloc hget
  have hstart := wbufGet_first hbuf haddr hmin halloc hget
  rcases alloc_eq halloc with ⟨-, hr⟩
  have hentry := advance_iov_self r0
  subst hstart
  subst hr
  exact ⟨hinv, if_pos (congrArg IoVec.len hentry), rfl, nofun, nofun⟩

end Writer

/-! ## What a call reads -/

/-- A number of entries from one on. -/
def entriesFrom (r : RBuf) (i n : Nat) : List IoVec := (List.range n).map fun k => r.iov (i + k)

theorem entriesFrom_succ (r : RBuf) (i n : Nat) :
    entriesFrom r i (n + 1) = r.iov i :: entriesFrom r (i + 1) n := by
  unfold entriesFrom
  rw [List.range_succ_eq_map, List.map_cons, List.map_map]
  refine congrArg _ (List.map_congr_left fun k _ => ?_)
  show r.iov (i + (k + 1)) = r.iov (i + 1 + k)
  rw [Nat.add_right_comm, Nat.add_assoc]

theorem entries_eq {i n : Nat} (h : i + n ≤ r.iovCount) :
    r.entries i n = some (entriesFrom r i n) := if_pos h

theorem views_entriesFrom {blocks : List (List Byte)} {i : Nat} (n : Nat)
    (hholds : ∀ j, i ≤ j → j < i + n → HoldsAt r j (blocks.getD j [])) :
    views r (entriesFrom r i n) = ((blocks.drop i).take n).flatten ∧
      ∀ e ∈ entriesFrom r i n, Inside r e := by
  constructor
  · induction n with
    | zero => simp [views, entriesFrom]
    | succ n ih =>
      have hlast := (hholds (i + n) (Nat.le_add_right _ _) (by omega)).view_eq
      have hprev := ih fun j hj hlt => hholds j hj (by omega)
      have hsplit : entriesFrom r i (n + 1) = entriesFrom r i n ++ [r.iov (i + n)] := by
        unfold entriesFrom
        rw [List.range_succ, List.map_append, List.map_singleton]
      unfold views at hprev ⊢
      rw [hsplit, List.flatMap_append, hprev, List.take_add_one, List.flatten_append,
        List.flatMap_singleton, hlast, List.getElem?_drop]
      congr 1
      unfold List.getD
      cases blocks[i + n]? with
      | none => rfl
      | some block => simp
  · intro e he
    rcases List.mem_map.mp he with ⟨k, hk, rfl⟩
    have hlt := List.mem_range.mp hk
    exact (hholds (i + k) (Nat.le_add_right _ _) (by omega)).inside

section Held

variable {old cur : List (List Byte)} (hheld : Held r old cur)
include hheld

theorem Held.holds_entry {j : Nat} (hj : j ≤ r.iovIndex) : HoldsAt r j (cur.getD j []) := by
  have hinv := hheld.inv
  have hindex := hheld.index
  by_cases hlt : j < cur.length
  · rw [List.getD_eq_getElem _ _ hlt]
    exact hheld.holds j _ (List.getElem?_eq_getElem hlt)
  · have hempty : (r.iov r.iovIndex).len = 0 := by
      by_contra hne
      have hnext : nextIndex r = r.iovIndex + 1 := if_neg hne
      omega
    have hnext : nextIndex r = r.iovIndex := if_pos hempty
    have hlast : j = r.iovIndex := by omega
    have hbase := hinv.base_ge r.iovIndex (Nat.le_refl _)
    have hcur := hinv.cur
    have hwpos := hinv.wpos
    rw [List.getD_eq_default _ _ (Nat.le_of_not_lt hlt), hlast]
    refine ⟨⟨by omega, by omega⟩, ?_⟩
    unfold view
    rw [hempty, List.take_zero]

theorem Held.holds_old {j : Nat} (hgt : r.iovIndex < j) (hle : j ≤ r.iovIndexMax) :
    j < old.length ∧ HoldsAt r j (old.getD j []) := by
  have hindex := hheld.index
  have hmax := hheld.maxIndex
  have hnext := nextIndex_le_succ r
  have hlt : j < old.length := by omega
  rw [List.getD_eq_getElem _ _ hlt]
  exact ⟨hlt, hheld.olds j _ hgt (List.getElem?_eq_getElem hlt)⟩

theorem Held.views_current {i : Nat} (hi : i ≤ r.iovIndex) :
    views r (entriesFrom r i (1 + r.iovIndex - i)) = (cur.drop i).flatten ∧
      ∀ e ∈ entriesFrom r i (1 + r.iovIndex - i), Inside r e := by
  have hindex := hheld.index
  have hnext := nextIndex_le_succ r
  have hlen : (cur.drop i).length ≤ 1 + r.iovIndex - i := by
    rw [List.length_drop]
    omega
  have hviews := views_entriesFrom (r := r) (1 + r.iovIndex - i)
    fun j (_ : i ≤ j) hlt => hheld.holds_entry (show j ≤ r.iovIndex by omega)
  rw [List.take_of_length_le hlen] at hviews
  exact hviews

theorem Held.views_old {i : Nat} (hgt : r.iovIndex < i) (hle : i ≤ r.iovIndexMax) :
    views r (entriesFrom r i (1 + r.iovIndexMax - i)) = (old.drop i).flatten ∧
      ∀ e ∈ entriesFrom r i (1 + r.iovIndexMax - i), Inside r e := by
  have hindex := hheld.index
  have hmax := hheld.maxIndex
  have hnext := nextIndex_le_succ r
  have hlen : (old.drop i).length ≤ 1 + r.iovIndexMax - i := by
    rw [List.length_drop]
    omega
  have hviews := views_entriesFrom (r := r) (1 + r.iovIndexMax - i)
    fun j (hj : i ≤ j) hlt => (hheld.holds_old (show r.iovIndex < j by omega) (by omega)).2
  rw [List.take_of_length_le hlen] at hviews
  exact hviews

end Held

/-- What a call must return: the bytes after the position, as many as it reports. -/
structure Exact (data : List Byte) (r : RBuf) (dataSize iovCnt : Nat) (got : Got) : Prop where
  views : views r got.iov = data.take got.dataSize
  enough : got.dataSize ≤ data.length
  size : lens got.iov = got.dataSize
  le : got.dataSize ≤ dataSize
  length : got.iov.length ≤ iovCnt
  empty : got.dataSize = 0 ↔ got.iov = []

theorem length_views (hmem : r.mem.length = r.size) {iov : List IoVec}
    (hinside : ∀ e ∈ iov, Inside r e) : (views r iov).length = lens iov := by
  induction iov with
  | nil => rfl
  | cons e iov ih =>
    have hfirst := length_view hmem (hinside e List.mem_cons_self)
    have hrest := ih fun e' he' => hinside e' (List.mem_cons_of_mem _ he')
    have hsplit : views r (e :: iov) = view r e ++ views r iov := List.flatMap_cons
    rw [hsplit, List.length_append, hfirst, hrest, lens_cons]

theorem exact_of_prefix (hmem : r.mem.length = r.size) {data : List Byte} {got : Got}
    {dataSize iovCnt : Nat} (hviews : views r got.iov <+: data)
    (hinside : ∀ e ∈ got.iov, Inside r e) (hsize : lens got.iov = got.dataSize)
    (hle : got.dataSize ≤ dataSize) (hlength : got.iov.length ≤ iovCnt)
    (hempty : got.dataSize = 0 ↔ got.iov = []) : Exact data r dataSize iovCnt got := by
  have hlen := length_views hmem hinside
  rw [hsize] at hlen
  refine ⟨?_, ?_, hsize, hle, hlength, hempty⟩
  · rw [← hlen]
    exact List.prefix_iff_eq_take.mp hviews
  · rw [← hlen]
    exact hviews.length_le

/-- In the current round, the first block is smaller than the size that is asked for, and if nothing
is left of it the next one fits.  In the previous round, a number of blocks fills the size, or the
first block of the current round is smaller than what its blocks leave, and there is a region for
it. -/
def GetFits (r : RBuf) (rpos : RPos) (dataSize iovCnt : Nat) : Prop :=
  let first := (r.iov rpos.iovIndex).len - rpos.iovOff
  let rest := entriesFrom r (rpos.iovIndex + 1) (r.iovIndexMax - rpos.iovIndex)
  if rpos.roundNum = r.roundNum then
    r.iovIndex < rpos.iovIndex ∨
      first < dataSize ∧
        (0 < first ∨ 1 < iovCnt ∧ rpos.iovIndex < r.iovIndex ∧
          0 < (r.iov (rpos.iovIndex + 1)).len ∧
            first + (r.iov (rpos.iovIndex + 1)).len ≤ dataSize)
  else
    first < dataSize ∧
      ((∃ k < rest.length, first + lens (rest.take (k + 1)) = dataSize ∧
          joints (r.iov rpos.iovIndex) (rest.take k) + 1 < iovCnt) ∨
        (0 < first + lens rest ∧ 0 < (r.iov 0).len ∧
          first + lens rest + (r.iov 0).len < dataSize ∧
            joints (r.iov rpos.iovIndex) rest + 1 < iovCnt))

section Held

variable {old cur : List (List Byte)} (hheld : Held r old cur) {dataSize iovCnt dropSize : Nat}
include hheld

/-- A call with a position in the current round. -/
theorem Held.get_current (hround : rpos.roundNum = r.roundNum) (hvalid : Valid r rpos)
    (hcheck : rposCheck r p = some (true, rpos, dropSize)) (hdata : 0 < dataSize)
    (hcnt : 0 < iovCnt) (hfits : GetFits r rpos dataSize iovCnt) :
    ∃ got, dataGet r p dataSize iovCnt = some got ∧ got.rpos = rpos ∧
      Exact ((cur.drop rpos.iovIndex).flatten.drop rpos.iovOff) r dataSize iovCnt got := by
  have hinv := hheld.inv
  have haddr := hinv.addr
  have hcount := hinv.index_lt
  have hindex := hheld.index
  have hnext := nextIndex_le_succ r
  have hle : rpos.iovIndex ≤ r.iovIndex + 1 := by
    rcases hvalid.round with ⟨-, hle⟩ | ⟨hne, -⟩
    · exact hle
    · exact absurd hround hne
  unfold dataGet
  rw [if_neg (by omega), hcheck]
  simp only [Option.bind_eq_bind, Option.bind_some, Bool.true_eq_false, if_false, if_pos hround]
  by_cases hend : rpos.iovIndex = r.iovIndex + 1
  · -- there is nothing to read
    rw [if_pos hend]
    exact ⟨_, rfl, rfl, exact_of_prefix hinv.mem List.nil_prefix nofun rfl (Nat.zero_le _)
      (Nat.zero_le _) ⟨fun _ => rfl, fun _ => rfl⟩⟩
  · rw [if_neg hend, entries_eq (by omega), Option.bind_some]
    unfold GetFits at hfits
    rw [if_pos hround] at hfits
    rcases hfits with hout | ⟨hsize, hfirst⟩
    · omega
    rcases hheld.views_current (show rpos.iovIndex ≤ r.iovIndex by omega) with ⟨hviews, hinside⟩
    have hn : 1 + r.iovIndex - rpos.iovIndex = r.iovIndex - rpos.iovIndex + 1 := by omega
    rw [hn, entriesFrom_succ] at hviews hinside
    rw [hn, entriesFrom_succ]
    have hrest : entriesFrom r (rpos.iovIndex + 1) (r.iovIndex - rpos.iovIndex) = [] →
        rpos.iovOff < (r.iov rpos.iovIndex).len := by
      intro hnil
      have hlen := congrArg List.length hnil
      unfold entriesFrom at hlen
      rw [List.length_map, List.length_range, List.length_nil] at hlen
      omega
    have htakes := iovecAggregateEx_takes haddr hinv.mem hinside hvalid.off hsize hcnt hrest
    have hleft := htakes.left
    have hsome : 0 < lens (iovecAggregateEx (r.iov rpos.iovIndex ::
        entriesFrom r (rpos.iovIndex + 1) (r.iovIndex - rpos.iovIndex)) dataSize rpos.iovOff
          iovCnt).1 := by
      rcases hfirst with hpos | ⟨hroom, hlt, hpos, hsecond⟩
      · exact Nat.lt_of_lt_of_le hpos htakes.first
      · have hcons : entriesFrom r (rpos.iovIndex + 1) (r.iovIndex - rpos.iovIndex) =
            r.iov (rpos.iovIndex + 1) ::
              entriesFrom r (rpos.iovIndex + 1 + 1) (r.iovIndex - rpos.iovIndex - 1) := by
          rw [← entriesFrom_succ, Nat.sub_add_cancel (by omega)]
        have hle' := iovecAggregateEx_second haddr hinside hvalid.off hsize hcons hroom hsecond
        omega
    generalize iovecAggregateEx (r.iov rpos.iovIndex ::
      entriesFrom r (rpos.iovIndex + 1) (r.iovIndex - rpos.iovIndex)) dataSize rpos.iovOff iovCnt =
        res at htakes hleft hsome ⊢
    have hprefix := htakes.views
    rw [hviews] at hprefix
    have hreported : dataSize - res.2 = lens res.1 := by omega
    refine ⟨_, rfl, rfl, exact_of_prefix hinv.mem hprefix htakes.inside hreported.symm
      (Nat.sub_le _ _) htakes.length ⟨fun hzero => ?_, fun hnil => absurd hnil htakes.ne⟩⟩
    have hzero' : dataSize - res.2 = 0 := hzero
    omega

/-- A call with a position in the previous round. -/
theorem Held.get_previous (hround : rpos.roundNum ≠ r.roundNum) (hvalid : Valid r rpos)
    (hcheck : rposCheck r p = some (true, rpos, dropSize)) (hdata : 0 < dataSize)
    (hcnt : 0 < iovCnt) (hfits : GetFits r rpos dataSize iovCnt) :
    ∃ got, dataGet r p dataSize iovCnt = some got ∧ got.rpos = rpos ∧
      Exact ((old.drop rpos.iovIndex ++ cur).flatten.drop rpos.iovOff) r dataSize iovCnt got := by
  have hinv := hheld.inv
  have haddr := hinv.addr
  have hcount := hinv.index_lt
  have hlen := hinv.count
  have hmax := hinv.max
  have hgt : r.iovIndex < rpos.iovIndex ∧ rpos.iovIndex ≤ r.iovIndexMax := by
    rcases hvalid.round with ⟨heq, -⟩ | ⟨-, -, hgt⟩
    · exact absurd heq hround
    · exact hgt
  unfold GetFits at hfits
  rw [if_neg hround] at hfits
  rcases hfits with ⟨hsize, hfits⟩
  rcases hheld.views_old hgt.1 hgt.2 with ⟨hviews1, hinside1⟩
  rcases hheld.views_current (Nat.zero_le r.iovIndex) with ⟨hviews2, hinside2⟩
  have hn1 : 1 + r.iovIndexMax - rpos.iovIndex = r.iovIndexMax - rpos.iovIndex + 1 := by omega
  have hn2 : 1 + r.iovIndex - 0 = r.iovIndex + 1 := by omega
  have hn2' : 1 + r.iovIndex = r.iovIndex + 1 := Nat.add_comm _ _
  rw [hn1, entriesFrom_succ] at hviews1 hinside1
  rw [hn2, entriesFrom_succ, List.drop_zero] at hviews2
  rw [hn2, entriesFrom_succ] at hinside2
  unfold dataGet
  rw [if_neg (by omega), hcheck]
  simp only [Option.bind_eq_bind, Option.bind_some, Bool.true_eq_false, if_false, if_neg hround]
  rw [entries_eq (by omega), entries_eq (by omega), hn1, hn2', entriesFrom_succ, entriesFrom_succ]
  simp only [Option.bind_some]
  generalize entriesFrom r (rpos.iovIndex + 1) (r.iovIndexMax - rpos.iovIndex) = rest1
    at hviews1 hinside1 hfits ⊢
  generalize entriesFrom r (0 + 1) r.iovIndex = rest2 at hviews2 hinside2 ⊢
  -- the bytes of the previous round come first
  have hfirst := hinside1 (r.iov rpos.iovIndex) List.mem_cons_self
  have hdrop : ((old.drop rpos.iovIndex ++ cur).flatten).drop rpos.iovOff =
      (views r (r.iov rpos.iovIndex :: rest1)).drop rpos.iovOff ++
        views r (r.iov 0 :: rest2) := by
    have hlength := length_views hinv.mem hinside1
    have hoff := hvalid.off
    rw [lens_cons] at hlength
    rw [List.flatten_append, ← hviews1, ← hviews2, List.drop_append_of_le_length (by omega)]
  rw [hdrop]
  have hsplit : ∀ iov iov', views r (iov ++ iov') = views r iov ++ views r iov' := by
    intro iov iov'
    unfold views
    rw [List.flatMap_append]
  rcases hfits with ⟨k, hk, hfill, hroom⟩ | ⟨hsome, hpos, hless, hroom⟩
  · -- the blocks of the previous round fill the size
    have hrest : rest1 = [] → rpos.iovOff < (r.iov rpos.iovIndex).len := by
      intro hnil
      rw [hnil] at hk
      exact absurd hk (Nat.not_lt_zero _)
    have htakes := iovecAggregateEx_takes haddr hinv.mem hinside1 hvalid.off hsize hcnt hrest
    have hleft := iovecAggregateEx_fill haddr hinside1 hvalid.off hsize hk hfill hroom
    generalize iovecAggregateEx (r.iov rpos.iovIndex :: rest1) dataSize rpos.iovOff iovCnt = res1
      at htakes hleft ⊢
    have hzero : (r.iov 0).len < 2 ^ 64 := by
      have hle := (hinside2 (r.iov 0) List.mem_cons_self).le
      omega
    have hnone := @iovecAggregateEx_nil (r.iov 0) rest2 hzero 0 (iovCnt - res1.1.length)
      (.inr (.inl rfl))
    have hsum := htakes.left
    rw [hleft, hnone]
    have hreported : dataSize - 0 = lens (res1.1 ++ []) := by
      rw [List.append_nil]
      omega
    refine ⟨_, rfl, rfl, exact_of_prefix hinv.mem ?_ ?_ hreported.symm (Nat.sub_le _ _) ?_
      ⟨fun hzero => ?_, fun hnil => ?_⟩⟩
    · show views r (res1.1 ++ []) <+: _
      rw [List.append_nil]
      exact htakes.views.trans (List.prefix_append _ _)
    · show ∀ e ∈ res1.1 ++ [], Inside r e
      rw [List.append_nil]
      exact htakes.inside
    · show (res1.1 ++ []).length ≤ iovCnt
      rw [List.append_nil]
      exact htakes.length
    · have hzero' : dataSize - 0 = 0 := hzero
      omega
    · have hnil' : res1.1 ++ [] = [] := hnil
      rw [List.append_nil] at hnil'
      exact absurd hnil' htakes.ne
  · -- all of them are taken, and then blocks of the current round
    have hrest : rest1 = [] → rpos.iovOff < (r.iov rpos.iovIndex).len := by
      intro hnil
      rw [hnil] at hsome
      have hzero : lens [] = 0 := rfl
      omega
    have htakes := iovecAggregateEx_takes haddr hinv.mem hinside1 hvalid.off hsize hcnt hrest
    rcases iovecAggregateEx_all haddr hinv.mem hinside1 hvalid.off hsize (by omega) hroom hsome with
      ⟨hviews, hlength, hleft⟩
    generalize iovecAggregateEx (r.iov rpos.iovIndex :: rest1) dataSize rpos.iovOff iovCnt = res1
      at htakes hviews hlength hleft ⊢
    have hsize2 : (r.iov 0).len - 0 < res1.2 := by omega
    have htakes2 := @iovecAggregateEx_takes _ haddr hinv.mem _ _ hinside2 0 _
      (iovCnt - res1.1.length) (Nat.zero_le _) hsize2 (by omega) fun _ => hpos
    generalize iovecAggregateEx (r.iov 0 :: rest2) res1.2 0 (iovCnt - res1.1.length) = res2
      at htakes2 ⊢
    have hsum1 := htakes.left
    have hsum2 := htakes2.left
    have hreported : dataSize - res2.2 = lens (res1.1 ++ res2.1) := by
      rw [lens_append]
      omega
    refine ⟨_, rfl, rfl, exact_of_prefix hinv.mem ?_ ?_ hreported.symm (Nat.sub_le _ _) ?_
      ⟨fun hzero => ?_, fun hnil => ?_⟩⟩
    · show views r (res1.1 ++ res2.1) <+: _
      rw [hsplit, hviews]
      exact (List.prefix_append_right_inj _).mpr htakes2.views
    · intro e he
      rcases List.mem_append.mp he with h | h
      · exact htakes.inside e h
      · exact htakes2.inside e h
    · show (res1.1 ++ res2.1).length ≤ iovCnt
      have hle := htakes2.length
      rw [List.length_append]
      omega
    · have hzero' : dataSize - res2.2 = 0 := hzero
      have hfirst2 := htakes2.first
      omega
    · exact absurd (List.append_eq_nil_iff.mp hnil).1 htakes.ne

end Held

theorem Writer.dataAfter_fixed {s : Writer} (hok : s.Ok) (hvalid : Valid s.r p)
    (hfixed : p = fixOff s.r rpos ∨
      rpos.roundNum ≠ s.r.roundNum ∧ s.r.iovIndexMax < rpos.iovIndex ∧ p = ⟨0, 0, s.r.roundNum⟩)
    (hoff : rpos.iovOff ≤ (s.blockAt rpos).length) : s.dataAfter p = s.dataAfter rpos := by
  have hmem := (Held.inv hok).mem
  have hmax := Held.maxIndex hok
  unfold blockAt at hoff
  rcases hfixed with hp | ⟨hround, hgt, hp⟩
  · -- the entry has the size of the block
    have hfix : fixOff s.r rpos = rpos := by
      have hround := hvalid.round
      rw [hp, fixOff_round, fixOff_index] at hround
      rcases hround with ⟨hround, hle⟩ | ⟨hround, -, hgt, hle⟩
      · rw [if_pos hround] at hoff
        by_cases hlt : rpos.iovIndex < s.cur.length
        · rw [List.getD_eq_getElem _ _ hlt] at hoff
          exact (Held.holds hok _ _ (List.getElem?_eq_getElem hlt)).fixOff_eq hmem hoff
        · rw [List.getD_eq_default _ _ (Nat.le_of_not_lt hlt), List.length_nil] at hoff
          exact fixOff_eq (by omega)
      · rw [if_neg hround] at hoff
        exact (Held.holds_old hok hgt hle).2.fixOff_eq hmem hoff
    rw [hp, hfix]
  · have hout : s.old.length ≤ rpos.iovIndex := by omega
    rw [if_neg hround, List.getD_eq_default _ _ hout, List.length_nil] at hoff
    unfold dataAfter after
    rw [hp, if_pos rfl, if_neg hround, List.drop_eq_nil_of_le hout, Nat.le_zero.mp hoff]
    rfl

/-- In every run of safe steps of the writer, for every position that passes the check, a call that
fits returns the bytes after the position, as many as it reports. -/
theorem dataGet_exact {buf minBlockSize minBufSize dataSize iovCnt dropSize : Nat} {mem : List Byte}
    {keepTail : Bool} {r0 start : RBuf} {got0 : Nat × Nat} {s : Writer} (hbuf : 2 ^ 12 ≤ buf)
    (haddr : buf + mem.length < 2 ^ 64) (hmin : minBlockSize ≤ mem.length)
    (halloc : alloc buf mem minBlockSize keepTail = some r0)
    (hget : wbufGet r0 minBufSize = some (some got0, start))
    (hreach : (Writer.first start).Reach s)
    (hcheck : rposCheck s.r rpos = some (true, p, dropSize)) (hdata : 0 < dataSize)
    (hcnt : 0 < iovCnt) (hfits : GetFits s.r p dataSize iovCnt) :
    (rpos.iovOff ≤ (s.blockAt rpos).length → s.dataAfter p = s.dataAfter rpos) ∧
      ∃ got, dataGet s.r rpos dataSize iovCnt = some got ∧ got.rpos = p ∧
        Exact (s.dataAfter p) s.r dataSize iovCnt got := by
  have hok := hreach.ok (Writer.ok_first hbuf haddr hmin halloc hget)
  have hpos : 0 < s.r.iovCount := Nat.zero_lt_of_lt (Held.inv hok).index_lt
  rcases rposCheck_true hpos hcheck with ⟨hvalid, hfixed⟩
  refine ⟨Writer.dataAfter_fixed hok hvalid hfixed, ?_⟩
  unfold Writer.dataAfter Writer.after
  by_cases hround : p.roundNum = s.r.roundNum
  · rw [if_pos hround]
    exact Held.get_current hok hround hvalid hcheck hdata hcnt hfits
  · rw [if_neg hround]
    exact Held.get_previous hok hround hvalid hcheck hdata hcnt hfits

/-- A block of three bytes. -/
def threeBytes : Writer :=
  ⟨commit2 { advance small with mem := [1, 2, 3, 0, 0, 0, 0, 0] } 4096 3, [], [[1, 2, 3]]⟩

theorem reach_threeBytes : (Writer.first (advance small)).Reach threeBytes := by
  have hwrite : (Writer.first (advance small)).step (.write 4096 [1, 2, 3]) = some
      ⟨{ advance small with mem := [1, 2, 3, 0, 0, 0, 0, 0] }, [], []⟩ := rfl
  have hset : Writer.step ⟨{ advance small with mem := [1, 2, 3, 0, 0, 0, 0, 0] }, [], []⟩
      (.set2 4096 3) = some threeBytes := rfl
  have hsafe : Writer.Safe (Writer.first (advance small)) (.write 4096 [1, 2, 3]) := by
    intro j hlive
    rcases hlive with hlt | ⟨hgt, hle⟩
    · exact absurd hlt (Nat.not_lt_zero j)
    · exact absurd (Nat.lt_of_lt_of_le hgt hle) (Nat.lt_irrefl _)
  have hsafe' : Writer.Safe ⟨{ advance small with mem := [1, 2, 3, 0, 0, 0, 0, 0] }, [], []⟩
      (.set2 4096 3) := by
    show 4096 + 3 < 2 ^ 64
    decide
  exact (Writer.Reach.refl.step _ hsafe hwrite).step _ hsafe' hset

/-- A reader at the start that asks for eight bytes gets the block. -/
theorem dataGet_exact_block :
    ∃ got, dataGet threeBytes.r ⟨0, 0, 0⟩ 8 1 = some got ∧ got.rpos = ⟨0, 0, 0⟩ ∧
      Exact [1, 2, 3] threeBytes.r 8 1 got := by
  have halloc : alloc 4096 (List.replicate 8 0) 1 false = some small := rfl
  have hget : wbufGet small 1 = some (some (4096, 8), advance small) :=
    wbufGet_advance (by decide) (by decide) (by decide) (by decide)
  have hcheck : rposCheck threeBytes.r ⟨0, 0, 0⟩ = some (true, ⟨0, 0, 0⟩, 0) := rfl
  have hfits : GetFits threeBytes.r ⟨0, 0, 0⟩ 8 1 := by
    have hround : (0 : Nat) = threeBytes.r.roundNum := rfl
    unfold GetFits
    dsimp only
    rw [if_pos hround]
    exact .inr ⟨by decide, .inl (by decide)⟩
  exact (dataGet_exact (by decide) (by decide) (by decide) halloc hget reach_threeBytes hcheck
    (by decide) (by decide) hfits).2

/-- A reader at the start that asks for two bytes gets nothing, and is told that it got two. -/
theorem dataGet_not_exact :
    alloc 4096 (List.replicate 8 0) 1 false = some small ∧
    wbufGet small 1 = some (some (4096, 8), advance small) ∧
    (Writer.first (advance small)).Reach threeBytes ∧
    rposCheck threeBytes.r ⟨0, 0, 0⟩ = some (true, ⟨0, 0, 0⟩, 0) ∧
    ∃ got, dataGet threeBytes.r ⟨0, 0, 0⟩ 2 1 = some got ∧ got.iov = [] ∧ got.dataSize = 2 ∧
      ¬Exact (threeBytes.dataAfter ⟨0, 0, 0⟩) threeBytes.r 2 1 got := by
  refine ⟨rfl, wbufGet_advance (by decide) (by decide) (by decide) (by decide), reach_threeBytes,
    rfl, ⟨[], ⟨0, 0, 0⟩, some 0, 2⟩, rfl, rfl, rfl, fun hexact => ?_⟩
  exact absurd (hexact.empty.mpr rfl) (by decide)

end RingBuf
