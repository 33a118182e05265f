import Liblcb.Utils.ReassSound
import Mathlib.Algebra.BigOperators.Intervals
import Mathlib.Algebra.Order.BigOperators.Group.Finset

/-!
# A delivered message is completed

The fragments of a message in any order, with duplicates: when the call with the last missing one
returns `0`.
-/

namespace Reass

open Mem Buffer

variable {hlp hlp' : ReassHlp} {bitmap : List Byte} {frag : Frag} {ret : Ret}

/-! ## What a call leaves -/

theorem countReorder_eq (hlp : ReassHlp) (frag : Frag) :
    ∃ reordersCnt, countReorder hlp frag = { hlp with reordersCnt } := by
  unfold countReorder
  split
  · exact ⟨_, rfl⟩
  · exact ⟨hlp.reordersCnt, rfl⟩

theorem startFrag_bitmap (hbitmap : hlp.bitmap = some bitmap) :
    (startFrag hlp frag).bitmap = some (List.replicate bitmap.length 0) := by
  show hlp.bitmap.map _ = _
  rw [hbitmap]
  rfl

/-- What a call does with a fragment: it refuses it, it knows its block, or it stores it. -/
def Outcome (base : ReassHlp) (bits : List Byte) (frag : Frag) (ret : Ret) (hlp' : ReassHlp) :
    Prop :=
  (ret ≠ .ok ∧ ret ≠ .eagain ∧ hlp' = base) ∨
  (ret = .eagain ∧ seqCalcDiff base.firstSeqNo frag.seqNo < bits.length ∧
    getBit bits (seqCalcDiff base.firstSeqNo frag.seqNo) = true ∧
    ∃ dupCnt, hlp' = { base with dupCnt }) ∨
  (seqCalcDiff base.firstSeqNo frag.seqNo < bits.length ∧
    getBit bits (seqCalcDiff base.firstSeqNo frag.seqNo) = false ∧
    seqCalcDiff base.firstSeqNo frag.seqNo * base.blkSize + frag.data.length ≤ base.buf.length ∧
    hlp' = stored base bits frag ∧ ret = verdict hlp')

theorem outcome_placeFrag (hbuf : hlp.buf.length < 2 ^ 64) (hbitmap : hlp.bitmap = some bitmap)
    (h : placeFrag hlp frag = some (ret, hlp')) : Outcome hlp bitmap frag ret hlp' := by
  rcases placeFrag_cases hbuf hbitmap h with ⟨hret, hsame⟩ |
    ⟨hret, hlt, hbit, hsame⟩ | hstored
  · refine .inl ⟨?_, ?_, hsame⟩
    · rintro rfl
      exact absurd hret (by decide)
    · rintro rfl
      exact absurd hret (by decide)
  · exact .inr (.inl ⟨hret, hlt, hbit, _, hsame⟩)
  · exact .inr (.inr hstored)

theorem handleFrag_cases (hbuf : hlp.buf.length < 2 ^ 64) (hbitmap : hlp.bitmap = some bitmap)
    (h : handleFrag hlp frag = some (ret, hlp')) :
    ∃ base bits, base.bitmap = some bits ∧ bits.length = bitmap.length ∧ base.buf = hlp.buf ∧
      base.firstSeqNo = (if frag.starts then frag.seqNo else hlp.firstSeqNo) ∧
      (¬frag.starts → bits = bitmap) ∧ Outcome base bits frag ret hlp' := by
  unfold handleFrag at h
  split at h
  case isTrue hfirst =>
    split at h
    -- The first part without data does not reset: the call is refused before.
    case isTrue hempty =>
      have hnot : ¬frag.starts := fun h => h.2 hempty
      rw [Option.some.injEq, Prod.mk.injEq] at h
      refine ⟨hlp, bitmap, hbitmap, rfl, rfl, (if_neg hnot).symm, fun _ => rfl, .inl ?_⟩
      rcases h with ⟨rfl, rfl⟩
      exact ⟨nofun, nofun, rfl⟩
    case isFalse hempty =>
      have hstarts : frag.starts := ⟨hfirst, hempty⟩
      refine ⟨startFrag hlp frag, _, startFrag_bitmap hbitmap, List.length_replicate, rfl,
        (if_pos hstarts).symm, fun h => absurd hstarts h, ?_⟩
      split at h
      case isTrue =>
        rw [Option.some.injEq, Prod.mk.injEq] at h
        rcases h with ⟨rfl, rfl⟩
        exact .inl ⟨nofun, nofun, rfl⟩
      case isFalse => exact outcome_placeFrag hbuf (startFrag_bitmap hbitmap) h
  case isFalse hfirst =>
    have hnot : ¬frag.starts := fun h => hfirst h.1
    split at h
    case isTrue =>
      rw [Option.some.injEq, Prod.mk.injEq] at h
      refine ⟨hlp, bitmap, hbitmap, rfl, rfl, (if_neg hnot).symm, fun _ => rfl, .inl ?_⟩
      rcases h with ⟨rfl, rfl⟩
      exact ⟨nofun, nofun, rfl⟩
    case isFalse =>
      rcases countReorder_eq hlp frag with ⟨reordersCnt, hcount⟩
      rw [hcount] at h
      exact ⟨{ hlp with reordersCnt }, bitmap, hbitmap, rfl, rfl, (if_neg hnot).symm,
        fun _ => rfl, outcome_placeFrag hbuf hbitmap h⟩

/-- The sizes of a helper and the number it counts from. -/
structure Shape (bufSize bitmapSize firstSeqNo : Nat) (hlp : ReassHlp) (bitmap : List Byte) :
    Prop where
  buf : hlp.buf.length = bufSize
  bits : hlp.bitmap = some bitmap
  size : bitmap.length = bitmapSize
  first : hlp.firstSeqNo = firstSeqNo

theorem handleFrag_kept (hbuf : hlp.buf.length < 2 ^ 64) (hbitmap : hlp.bitmap = some bitmap)
    (h : handleFrag hlp frag = some (ret, hlp')) :
    ∃ bitmap', Shape hlp.buf.length bitmap.length
        (if frag.starts then frag.seqNo else hlp.firstSeqNo) hlp' bitmap' ∧
      (¬frag.starts → ∀ j, getBit bitmap j = true → getBit bitmap' j = true) ∧
      (ret = .ok ∨ ret = .eagain → seqCalcDiff hlp'.firstSeqNo frag.seqNo < bitmap.length ∧
        getBit bitmap' (seqCalcDiff hlp'.firstSeqNo frag.seqNo) = true) := by
  rcases handleFrag_cases hbuf hbitmap h with ⟨base, bits, hbits, hlen, hbase, hfirst, hsame, hout⟩
  have hmono : ¬frag.starts → ∀ j, getBit bitmap j = true → getBit bits j = true := by
    intro hnot j hj
    rw [hsame hnot]
    exact hj
  rcases hout with ⟨hok, heagain, rfl⟩ | ⟨-, hlt, hbit, dupCnt, rfl⟩ | ⟨hlt, -, hfits, rfl, -⟩
  · exact ⟨bits, ⟨by rw [hbase], hbits, hlen, hfirst⟩, hmono,
      fun hret => absurd hret (by rw [not_or]; exact ⟨hok, heagain⟩)⟩
  · exact ⟨bits, ⟨by rw [← hbase], hbits, hlen, hfirst⟩, hmono,
      fun _ => ⟨hlen ▸ hlt, hbit⟩⟩
  · refine ⟨setBit bits (seqCalcDiff base.firstSeqNo frag.seqNo), ⟨?_, rfl, ?_, hfirst⟩, ?_, ?_⟩
    · show (splice base.buf _ _).length = _
      rw [length_splice hfits, hbase]
    · rw [length_setBit, hlen]
    · intro hnot j hj
      rw [getBit_setBit (by omega), hmono hnot j hj, Bool.or_true]
    · intro _
      refine ⟨hlen ▸ hlt, ?_⟩
      show getBit _ (seqCalcDiff base.firstSeqNo frag.seqNo) = true
      rw [getBit_setBit (by omega), decide_eq_true rfl, Bool.true_or]

/-! ## Messages -/

/-- A message: the data of its fragments, all but the last of one size. -/
structure Message where
  firstSeqNo : Nat
  front : List (List Byte)
  last : List Byte
  blkSize : Nat
  front_size : ∀ data ∈ front, data.length = blkSize
  firstSeqNo_lt : firstSeqNo < 2 ^ 64
  size_lt : front.length * blkSize + last.length < 2 ^ 64

namespace Message

/-- The number of fragments. -/
def count (m : Message) : Nat := m.front.length + 1

def size (m : Message) : Nat := m.front.length * m.blkSize + m.last.length

def block (m : Message) (i : Nat) : List Byte := ((m.front ++ [m.last])[i]?).getD []

theorem block_of_lt (m : Message) {i : Nat} (hi : i < m.front.length) :
    (m.block i).length = m.blkSize := by
  rw [block, List.getElem?_append_left hi, List.getElem?_eq_getElem hi, Option.getD_some]
  exact m.front_size _ (List.getElem_mem hi)

theorem block_last (m : Message) : m.block m.front.length = m.last := by
  rw [block, List.getElem?_append_right (Nat.le_refl _), Nat.sub_self]
  rfl

theorem block_fits (m : Message) {i : Nat} (hi : i < m.count) :
    i * m.blkSize + (m.block i).length ≤ m.size := by
  have hi' : i ≤ m.front.length := Nat.le_of_lt_succ hi
  unfold size
  rcases Nat.lt_or_eq_of_le hi' with hlt | rfl
  · have hmul : (i + 1) * m.blkSize ≤ m.front.length * m.blkSize := Nat.mul_le_mul_right _ hlt
    rw [m.block_of_lt hlt]
    rw [Nat.succ_mul] at hmul
    omega
  · rw [m.block_last]

theorem block_lt (m : Message) (i : Nat) : (m.block i).length < 2 ^ 64 := by
  have hsize := m.size_lt
  by_cases hi : i < m.count
  · have h := m.block_fits hi
    unfold size at h
    omega
  · have hnone : (m.front ++ [m.last])[i]? = none := by
      rw [List.getElem?_eq_none_iff, List.length_append]
      exact Nat.le_of_not_lt hi
    rw [block, hnone]
    exact Nat.two_pow_pos _

/-- The `i`-th fragment. -/
def fragment (m : Message) (i : Nat) : Frag :=
  { seqNo := (m.firstSeqNo + i) % 2 ^ 64
    isFirst := i = 0
    isLast := i = m.front.length
    data := m.block i
    seqNo_lt := Nat.mod_lt _ (Nat.two_pow_pos _)
    data_lt := m.block_lt i }

/-- The deliveries contain every fragment. -/
def All (m : Message) (deliveries : List Nat) : Prop := ∀ i, i < m.count → i ∈ deliveries

/-- No sequence number of the message wraps. -/
def NoWrap (m : Message) : Prop := m.firstSeqNo + m.count ≤ 2 ^ 64

end Message

/-- The deliveries since the last one of the first fragment. -/
def sinceFirst (deliveries : List Nat) : List Nat :=
  deliveries.foldl (fun window i => if i = 0 then [i] else window ++ [i]) []

/-- The helper after calls with the fragments. -/
def run (hlp : ReassHlp) : List Frag → Option ReassHlp
  | [] => some hlp
  | frag :: frags => do
    let (_, hlp) ← handleFrag hlp frag
    run hlp frags

/-- An order of delivery: the first fragment comes first, and every fragment comes. -/
structure Delivery (m : Message) (deliveries : List Nat) : Prop where
  head : deliveries.head? = some 0
  lt : ∀ i ∈ deliveries, i < m.count
  all : m.All deliveries

/-- Every call has a defined outcome; until all fragments are in, a call returns `0` if it supplies
the last missing one and `EAGAIN` if not. -/
def Completes (m : Message) (hlp : ReassHlp) (deliveries : List Nat) : Prop :=
  ∀ pre i post, deliveries = pre ++ i :: post →
    ∃ hlp1 ret hlp2, run hlp (pre.map m.fragment) = some hlp1 ∧
      handleFrag hlp1 (m.fragment i) = some (ret, hlp2) ∧
      (¬m.All pre → (m.All (pre ++ [i]) → ret = .ok) ∧ (¬m.All (pre ++ [i]) → ret = .eagain))

/-- When the last missing fragment comes, every fragment has come since the last delivery of the
first one. -/
def Fresh (m : Message) (deliveries : List Nat) : Prop :=
  ∀ pre i post, deliveries = pre ++ i :: post → ¬m.All pre → m.All (pre ++ [i]) →
    m.All (sinceFirst (pre ++ [i]))

/-- The first fragment is taken. -/
def Accepted (m : Message) (hlp : ReassHlp) : Prop :=
  ∃ ret hlp', handleFrag hlp (m.fragment 0) = some (ret, hlp') ∧ (ret = .ok ∨ ret = .eagain)

/-! ## A message with room -/

namespace Message

variable {m : Message} {i : Nat}

theorem seqNo_fragment (hwrap : m.NoWrap) (hi : i < m.count) :
    (m.fragment i).seqNo = m.firstSeqNo + i := by
  unfold NoWrap at hwrap
  exact Nat.mod_eq_of_lt (by omega)

theorem mul_block_zero (hi : i < m.count) : i * (m.block 0).length = i * m.blkSize := by
  rcases Nat.eq_zero_or_pos i with rfl | hpos
  · rw [Nat.zero_mul, Nat.zero_mul]
  · have hfront : 0 < m.front.length := by
      unfold count at hi
      omega
    rw [m.block_of_lt hfront]

theorem sum_block : ∑ i ∈ Finset.range m.count, (m.block i).length = m.size := by
  have hfront : ∑ i ∈ Finset.range m.front.length, (m.block i).length =
      ∑ _i ∈ Finset.range m.front.length, m.blkSize :=
    Finset.sum_congr rfl fun i hi => m.block_of_lt (Finset.mem_range.mp hi)
  unfold count size
  rw [Finset.sum_range_succ, hfront, Finset.sum_const, Finset.card_range, Nat.nsmul_eq_mul, m.block_last]

end Message

/-- The message fits the buffer and the bitmap, and none of its numbers wraps. -/
structure Room (m : Message) (bufSize bitmapSize : Nat) : Prop where
  pos : 0 < (m.block 0).length
  bits : bufSize / (m.block 0).length ≤ bitmapSize * 8 % 2 ^ 64
  fits : m.size ≤ bufSize
  buf_lt : bufSize < 2 ^ 64
  bitmap_lt : bitmapSize < 2 ^ 64
  count : m.count ≤ bitmapSize
  noWrap : m.NoWrap

/-- The helper has stored the blocks of `seen` and no others. -/
structure Track (m : Message) (bufSize bitmapSize : Nat) (seen : Finset Nat) (hlp : ReassHlp)
    (bitmap : List Byte) : Prop where
  shape : Shape bufSize bitmapSize m.firstSeqNo hlp bitmap
  sub : seen ⊆ Finset.range m.count
  blkSize : hlp.blkSize = (m.block 0).length
  bits : ∀ i, i < m.count → (getBit bitmap i = true ↔ i ∈ seen)
  blkCnt : hlp.blkCnt = seen.card
  recvCnt : hlp.recvCnt = ∑ i ∈ seen, (m.block i).length
  size : hlp.sequenceSize = if m.front.length ∈ seen then m.size else 0
  last : m.front.length ∈ seen → hlp.lastSeqNo = m.firstSeqNo + m.front.length

section Room

variable {m : Message} {bufSize bitmapSize i : Nat} {seen : Finset Nat}

theorem placeFrag_eq (hbuf : hlp.buf.length < 2 ^ 64) (hbitmap : hlp.bitmap = some bitmap)
    (hblk : hlp.blkSize ≠ 0) (hge : hlp.firstSeqNo ≤ frag.seqNo)
    (hidx : frag.seqNo - hlp.firstSeqNo < bitmap.length)
    (hfits : (frag.seqNo - hlp.firstSeqNo) * hlp.blkSize + frag.data.length ≤ hlp.buf.length) :
    placeFrag hlp frag =
      if getBit bitmap (frag.seqNo - hlp.firstSeqNo) then
        some (.eagain, { hlp with dupCnt := (hlp.dupCnt + 1) % 2 ^ 64 })
      else some (verdict (stored hlp bitmap frag), stored hlp bitmap frag) := by
  have hdiff := seqCalcDiff_of_le hge
  have hmod : (frag.seqNo - hlp.firstSeqNo) * hlp.blkSize % 2 ^ 64 =
      (frag.seqNo - hlp.firstSeqNo) * hlp.blkSize := Nat.mod_eq_of_lt (by omega)
  have hdiv : (frag.seqNo - hlp.firstSeqNo) * hlp.blkSize / hlp.blkSize =
      frag.seqNo - hlp.firstSeqNo := Nat.mul_div_cancel _ (Nat.pos_of_ne_zero hblk)
  have hadd := @addData_eq hlp bitmap frag hbuf (hdiff.symm ▸ (Nat.mod_le _ _).trans hfits)
  rw [hdiff, if_neg (by omega)] at hadd
  unfold placeFrag
  simp only [hdiff, hmod, hdiv, hbitmap]
  rw [if_neg fun h => hblk h.2, if_neg fun h => h.2 rfl, if_neg (by omega), if_neg (by omega), hadd]

theorem Track.verdict_eq (hroom : Room m bufSize bitmapSize)
    (htrack : Track m bufSize bitmapSize seen hlp bitmap) :
    verdict hlp = if seen = Finset.range m.count then .ok else .eagain := by
  have hcount := hroom.count
  have hlt := hroom.bitmap_lt
  have hpos : m.size ≠ 0 := by
    have hfits := m.block_fits (i := 0) (Nat.succ_pos _)
    have hblock := hroom.pos
    omega
  have hlast : m.front.length < m.count := Nat.lt_succ_self _
  unfold verdict
  rw [htrack.size, htrack.blkCnt, htrack.shape.first]
  by_cases hmem : m.front.length ∈ seen
  · have hdiff : (seqCalcDiff m.firstSeqNo hlp.lastSeqNo + 1) % 2 ^ 64 = m.count := by
      rw [htrack.last hmem, seqCalcDiff_of_le (Nat.le_add_right _ _), Nat.add_sub_cancel_left]
      exact Nat.mod_eq_of_lt (Nat.lt_of_le_of_lt hcount hlt)
    rw [if_pos hmem, hdiff]
    by_cases hall : seen = Finset.range m.count
    · have hcard : seen.card = m.count := by rw [hall, Finset.card_range]
      have hrecv : hlp.recvCnt = m.size := by rw [htrack.recvCnt, hall, Message.sum_block]
      rw [if_pos hall, if_neg (by omega), if_neg fun h => h hrecv.symm]
    · have hcard : seen.card < m.count := by
        have hssub := Finset.card_lt_card (htrack.sub.ssubset_of_ne hall)
        rwa [Finset.card_range] at hssub
      rw [if_neg hall, if_pos (.inr hcard)]
  · have hall : seen ≠ Finset.range m.count := by
      intro h
      exact hmem (h ▸ Finset.mem_range.mpr hlast)
    rw [if_neg hmem, if_pos (.inl rfl), if_neg hall]

/-- Storing a block of the message. -/
theorem Track.store (hroom : Room m bufSize bitmapSize)
    (htrack : Track m bufSize bitmapSize seen hlp bitmap) (hi : i < m.count) (hnew : i ∉ seen) :
    Track m bufSize bitmapSize (insert i seen) (stored hlp bitmap (m.fragment i))
      (setBit bitmap i) := by
  have hcount := hroom.count
  have hbitmap := hroom.bitmap_lt
  have hdiff : seqCalcDiff hlp.firstSeqNo (m.fragment i).seqNo = i := by
    rw [htrack.shape.first, Message.seqNo_fragment hroom.noWrap hi,
      seqCalcDiff_of_le (Nat.le_add_right _ _), Nat.add_sub_cancel_left]
  have hoffset : i * hlp.blkSize = i * m.blkSize := by
    rw [htrack.blkSize, Message.mul_block_zero hi]
  have hfits : i * hlp.blkSize + (m.fragment i).data.length ≤ hlp.buf.length := by
    have h := m.block_fits hi
    have hsize := hroom.fits
    rw [hoffset, htrack.shape.buf]
    exact h.trans hsize
  have hsub : insert i seen ⊆ Finset.range m.count :=
    Finset.insert_subset (Finset.mem_range.mpr hi) htrack.sub
  -- a last block that is new sets the size
  have hlast : ((m.fragment i).isLast = true ∧ hlp.sequenceSize = 0) ↔ i = m.front.length := by
    have hflag : (m.fragment i).isLast = true ↔ i = m.front.length := decide_eq_true_iff
    rw [hflag]
    refine ⟨And.left, fun h => ⟨h, ?_⟩⟩
    rw [htrack.size, if_neg (h ▸ hnew)]
  unfold stored
  simp only [hdiff, hlast]
  refine ⟨⟨?_, rfl, ?_, htrack.shape.first⟩, hsub, htrack.blkSize, ?_, ?_, ?_, ?_, ?_⟩
  · show (splice _ _ _).length = _
    rw [length_splice hfits, htrack.shape.buf]
  · rw [length_setBit, htrack.shape.size]
  · intro j hj
    have hin := htrack.shape.size
    rw [getBit_setBit (by omega), Bool.or_eq_true, decide_eq_true_iff, htrack.bits j hj,
      Finset.mem_insert, eq_comm]
  · have hcard := Finset.card_le_card hsub
    rw [Finset.card_range, Finset.card_insert_of_notMem hnew] at hcard
    show (hlp.blkCnt + 1) % 2 ^ 64 = _
    rw [Finset.card_insert_of_notMem hnew, htrack.blkCnt]
    exact Nat.mod_eq_of_lt (by omega)
  · have hsum := Finset.sum_le_sum_of_subset (f := fun i => (m.block i).length) hsub
    rw [Message.sum_block, Finset.sum_insert hnew] at hsum
    have hfits := hroom.fits
    have hlt := hroom.buf_lt
    show (hlp.recvCnt + (m.block i).length) % 2 ^ 64 = _
    rw [Finset.sum_insert hnew, htrack.recvCnt, Nat.add_comm]
    exact Nat.mod_eq_of_lt (by omega)
  · show (if i = m.front.length then _ else hlp.sequenceSize) = _
    by_cases h : i = m.front.length
    · rw [if_pos h, if_pos (h ▸ Finset.mem_insert_self _ _), hoffset, h]
      show _ + (m.block _).length = _
      rw [m.block_last]
      rfl
    · have hmem : m.front.length ∈ insert i seen ↔ m.front.length ∈ seen := by
        rw [Finset.mem_insert, or_iff_right (Ne.symm h)]
      rw [if_neg h, htrack.size]
      simp only [hmem]
  · intro hmem
    show (if i = m.front.length then _ else hlp.lastSeqNo) = _
    by_cases h : i = m.front.length
    · rw [if_pos h, Message.seqNo_fragment hroom.noWrap hi, h]
    · rw [if_neg h]
      exact htrack.last ((Finset.mem_insert.mp hmem).resolve_left (Ne.symm h))

theorem Track.place (hroom : Room m bufSize bitmapSize)
    (htrack : Track m bufSize bitmapSize seen hlp bitmap) (hi : i < m.count) :
    ∃ hlp' bitmap', Track m bufSize bitmapSize (insert i seen) hlp' bitmap' ∧
      placeFrag hlp (m.fragment i) =
        some (if i ∉ seen ∧ insert i seen = Finset.range m.count then .ok else .eagain, hlp') := by
  have hseq : (m.fragment i).seqNo - hlp.firstSeqNo = i := by
    rw [htrack.shape.first, Message.seqNo_fragment hroom.noWrap hi, Nat.add_sub_cancel_left]
  have hfits : i * hlp.blkSize + (m.fragment i).data.length ≤ hlp.buf.length := by
    rw [htrack.blkSize, Message.mul_block_zero hi, htrack.shape.buf]
    exact (m.block_fits hi).trans hroom.fits
  have hge : hlp.firstSeqNo ≤ (m.fragment i).seqNo := by
    rw [htrack.shape.first, Message.seqNo_fragment hroom.noWrap hi]
    exact Nat.le_add_right _ _
  have hidx : i < bitmap.length := by
    rw [htrack.shape.size]
    exact Nat.lt_of_lt_of_le hi hroom.count
  have hblk : hlp.blkSize ≠ 0 := by
    rw [htrack.blkSize]
    exact Nat.ne_of_gt hroom.pos
  have hbuf : hlp.buf.length < 2 ^ 64 := by
    rw [htrack.shape.buf]
    exact hroom.buf_lt
  rw [placeFrag_eq hbuf htrack.shape.bits hblk hge (hseq.symm ▸ hidx) (hseq.symm ▸ hfits), hseq]
  by_cases hmem : i ∈ seen
  · have hdup : Track m bufSize bitmapSize seen { hlp with dupCnt := (hlp.dupCnt + 1) % 2 ^ 64 }
        bitmap :=
      ⟨⟨htrack.shape.buf, htrack.shape.bits, htrack.shape.size, htrack.shape.first⟩, htrack.sub,
        htrack.blkSize, htrack.bits, htrack.blkCnt, htrack.recvCnt, htrack.size, htrack.last⟩
    rw [if_pos ((htrack.bits i hi).mpr hmem), if_neg fun h => h.1 hmem, Finset.insert_eq_of_mem hmem]
    exact ⟨_, bitmap, hdup, rfl⟩
  · have hstore := htrack.store hroom hi hmem
    have hbit : ¬getBit bitmap i = true := fun h => hmem ((htrack.bits i hi).mp h)
    rw [if_neg hbit, hstore.verdict_eq hroom]
    simp only [hmem, not_false_eq_true, true_and]
    exact ⟨_, _, hstore, rfl⟩

theorem track_startFrag (hroom : Room m bufSize bitmapSize) (hbuf : hlp.buf.length = bufSize)
    (hbitmap : hlp.bitmap = some bitmap) (hsize : bitmap.length = bitmapSize) :
    Track m bufSize bitmapSize ∅ (startFrag hlp (m.fragment 0))
      (List.replicate bitmap.length 0) := by
  have hfirst : (m.fragment 0).seqNo = m.firstSeqNo := by
    rw [Message.seqNo_fragment hroom.noWrap (Nat.succ_pos _), Nat.add_zero]
  refine ⟨⟨hbuf, startFrag_bitmap hbitmap, ?_, hfirst⟩, Finset.empty_subset _, rfl, ?_, rfl, rfl,
    rfl, fun h => absurd h (Finset.notMem_empty _)⟩
  · rw [List.length_replicate, hsize]
  · intro i _
    rw [getBit_replicate]
    exact ⟨nofun, fun h => absurd h (Finset.notMem_empty _)⟩

theorem handleFrag_first (hroom : Room m bufSize bitmapSize) (hbuf : hlp.buf.length = bufSize)
    (hbitmap : hlp.bitmap = some bitmap) (hsize : bitmap.length = bitmapSize) :
    ∃ hlp' bitmap', Track m bufSize bitmapSize {0} hlp' bitmap' ∧
      handleFrag hlp (m.fragment 0) =
        some (if {0} = Finset.range m.count then .ok else .eagain, hlp') := by
  have hstart := track_startFrag hroom hbuf hbitmap hsize
  rcases hstart.place hroom (Nat.succ_pos _) with ⟨hlp', bitmap', htrack, hplace⟩
  have hspace : noBitmapSpace (startFrag hlp (m.fragment 0)) = false := by
    unfold noBitmapSpace
    rw [startFrag_bitmap hbitmap, Option.any_some, List.length_replicate, hsize,
      decide_eq_false_iff_not, Nat.not_lt]
    show hlp.buf.length / (m.block 0).length ≤ _
    rw [hbuf]
    exact hroom.bits
  have hfirst : (m.fragment 0).isFirst = true := rfl
  have hdata : (m.fragment 0).data.length ≠ 0 := Nat.ne_of_gt hroom.pos
  refine ⟨hlp', bitmap', htrack, ?_⟩
  unfold handleFrag
  rw [if_pos hfirst, if_neg hdata, hspace, if_neg Bool.false_ne_true, hplace]
  simp only [Finset.notMem_empty, not_false_eq_true, true_and]
  rfl

theorem Track.next (hroom : Room m bufSize bitmapSize)
    (htrack : Track m bufSize bitmapSize seen hlp bitmap) (hi : i < m.count) (hne : i ≠ 0) :
    ∃ hlp' bitmap', Track m bufSize bitmapSize (insert i seen) hlp' bitmap' ∧
      handleFrag hlp (m.fragment i) =
        some (if i ∉ seen ∧ insert i seen = Finset.range m.count then .ok else .eagain, hlp') := by
  have hfirst : ¬(m.fragment i).isFirst = true := by
    show ¬decide (i = 0) = true
    rw [decide_eq_true_iff]
    exact hne
  have hblock : ¬((m.fragment i).isLast = false ∧ hlp.blkSize ≠ (m.fragment i).data.length) := by
    rintro ⟨hlast, hblk⟩
    have hlt : i < m.front.length := by
      have h : i ≠ m.front.length := of_decide_eq_false hlast
      unfold Message.count at hi
      omega
    apply hblk
    show _ = (m.block i).length
    rw [htrack.blkSize, m.block_of_lt hlt, m.block_of_lt (by omega)]
  have hcounted : Track m bufSize bitmapSize seen (countReorder hlp (m.fragment i)) bitmap := by
    rcases countReorder_eq hlp (m.fragment i) with ⟨reordersCnt, hcount⟩
    rw [hcount]
    exact ⟨⟨htrack.shape.buf, htrack.shape.bits, htrack.shape.size, htrack.shape.first⟩, htrack.sub,
      htrack.blkSize, htrack.bits, htrack.blkCnt, htrack.recvCnt, htrack.size, htrack.last⟩
  rcases hcounted.place hroom hi with ⟨hlp', bitmap', htrack', hplace⟩
  refine ⟨hlp', bitmap', htrack', ?_⟩
  unfold handleFrag
  rw [if_neg hfirst, if_neg hblock, hplace]

end Room

/-! ## Runs of deliveries -/

theorem sinceFirst_append (deliveries : List Nat) (i : Nat) :
    sinceFirst (deliveries ++ [i]) = if i = 0 then [i] else sinceFirst deliveries ++ [i] := by
  unfold sinceFirst
  rw [List.foldl_append]
  rfl

theorem sinceFirst_subset (deliveries : List Nat) : sinceFirst deliveries ⊆ deliveries := by
  induction deliveries using List.reverseRecOn with
  | nil => exact List.Subset.refl _
  | append_singleton deliveries i ih =>
    rw [sinceFirst_append]
    split
    · exact List.subset_append_right _ _
    · exact List.append_subset.mpr
        ⟨fun j hj => List.mem_append_left _ (ih hj), List.subset_append_right _ _⟩

theorem sinceFirst_cons {deliveries : List Nat} (h : 0 ∉ deliveries) :
    sinceFirst (0 :: deliveries) = 0 :: deliveries := by
  induction deliveries using List.reverseRecOn with
  | nil => rfl
  | append_singleton deliveries i ih =>
    have hnot : 0 ∉ deliveries := fun hmem => h (List.mem_append_left _ hmem)
    have hi : i ≠ 0 := fun hi => h (List.mem_append_right _ (List.mem_singleton.mpr hi.symm))
    rw [← List.cons_append, sinceFirst_append, if_neg hi, ih hnot]

theorem run_append (hlp : ReassHlp) (frags : List Frag) (frag : Frag) :
    run hlp (frags ++ [frag]) = (run hlp frags).bind fun hlp =>
      (handleFrag hlp frag).map Prod.snd := by
  induction frags generalizing hlp with
  | nil =>
    show (handleFrag hlp frag).bind _ = (handleFrag hlp frag).map _
    cases handleFrag hlp frag with
    | none => rfl
    | some r => rfl
  | cons f frags ih =>
    show (handleFrag hlp f).bind _ = ((handleFrag hlp f).bind _).bind _
    cases handleFrag hlp f with
    | none => rfl
    | some r => exact ih r.2

section Deliveries

variable {m : Message} {bufSize bitmapSize i : Nat} {deliveries pre post : List Nat}

def seenBlocks (deliveries : List Nat) : Finset Nat := (sinceFirst deliveries).toFinset

theorem seenBlocks_append (deliveries : List Nat) (i : Nat) :
    seenBlocks (deliveries ++ [i]) = if i = 0 then {0} else insert i (seenBlocks deliveries) := by
  unfold seenBlocks
  rw [sinceFirst_append]
  split
  case isTrue hi =>
    rw [hi]
    rfl
  case isFalse =>
    ext j
    rw [List.mem_toFinset, List.mem_append, List.mem_singleton, Finset.mem_insert,
      List.mem_toFinset, or_comm]

theorem call_track (hroom : Room m bufSize bitmapSize) (hbuf : hlp.buf.length = bufSize)
    (hbitmap : hlp.bitmap = some bitmap) (hsize : bitmap.length = bitmapSize) (pre : List Nat) :
    ∀ i, (pre ++ [i]).head? = some 0 → (∀ j ∈ pre ++ [i], j < m.count) →
      ∃ hlp1 hlp2 bitmap2, run hlp (pre.map m.fragment) = some hlp1 ∧
        handleFrag hlp1 (m.fragment i) =
          some (if (i = 0 ∨ i ∉ seenBlocks pre) ∧ seenBlocks (pre ++ [i]) = Finset.range m.count
            then .ok else .eagain, hlp2) ∧
        Track m bufSize bitmapSize (seenBlocks (pre ++ [i])) hlp2 bitmap2 := by
  induction pre using List.reverseRecOn with
  | nil =>
    intro i hhead _
    have hi : i = 0 := Option.some.inj hhead
    subst hi
    rcases handleFrag_first hroom hbuf hbitmap hsize with ⟨hlp', bitmap', htrack, hcall⟩
    refine ⟨hlp, hlp', bitmap', rfl, ?_, htrack⟩
    simp only [true_or, true_and]
    exact hcall
  | append_singleton pre j ih =>
    intro i hhead hlt
    have hhead' : (pre ++ [j]).head? = some 0 := by
      rwa [List.head?_append_of_ne_nil _ (by simp)] at hhead
    rcases ih j hhead' fun k hk => hlt k (List.mem_append_left _ hk) with
      ⟨hlp0, hlp1, bitmap1, hrun, hcall, htrack⟩
    have hrun' : run hlp ((pre ++ [j]).map m.fragment) = some hlp1 := by
      rw [List.map_append, List.map_singleton, run_append, hrun, Option.bind_some, hcall]
      rfl
    rw [seenBlocks_append (pre ++ [j])]
    by_cases hi : i = 0
    · subst hi
      rcases handleFrag_first hroom htrack.shape.buf htrack.shape.bits htrack.shape.size with
        ⟨hlp2, bitmap2, htrack2, hcall2⟩
      refine ⟨hlp1, hlp2, bitmap2, hrun', ?_, htrack2⟩
      simp only [true_or, true_and, if_true]
      exact hcall2
    · have hi' : i < m.count := hlt i (List.mem_append_right _ (List.mem_singleton.mpr rfl))
      rcases htrack.next hroom hi' hi with ⟨hlp2, bitmap2, htrack2, hcall2⟩
      rw [if_neg hi]
      refine ⟨hlp1, hlp2, bitmap2, hrun', ?_, htrack2⟩
      simp only [hi, false_or]
      exact hcall2

theorem seenBlocks_eq_iff (hlt : ∀ j ∈ deliveries, j < m.count) :
    seenBlocks deliveries = Finset.range m.count ↔ m.All (sinceFirst deliveries) := by
  unfold seenBlocks Message.All
  constructor
  · intro h i hi
    rw [← List.mem_toFinset, h, Finset.mem_range]
    exact hi
  · intro h
    ext i
    rw [List.mem_toFinset, Finset.mem_range]
    exact ⟨fun hi => hlt i (sinceFirst_subset _ hi), h i⟩

theorem call_of_split (hroom : Room m bufSize bitmapSize) (hbuf : hlp.buf.length = bufSize)
    (hbitmap : hlp.bitmap = some bitmap) (hsize : bitmap.length = bitmapSize)
    (hdelivery : Delivery m deliveries) (hsplit : deliveries = pre ++ i :: post) :
    ∃ hlp1 ret hlp2, run hlp (pre.map m.fragment) = some hlp1 ∧
      handleFrag hlp1 (m.fragment i) = some (ret, hlp2) ∧
      (((i = 0 ∨ i ∉ seenBlocks pre) ∧ m.All (sinceFirst (pre ++ [i]))) → ret = .ok) ∧
      (¬((i = 0 ∨ i ∉ seenBlocks pre) ∧ m.All (sinceFirst (pre ++ [i]))) → ret = .eagain) := by
  have hpre : deliveries = (pre ++ [i]) ++ post := by
    rw [hsplit, List.append_assoc]
    rfl
  have hlt : ∀ j ∈ pre ++ [i], j < m.count := fun j hj =>
    hdelivery.lt j (hpre ▸ List.mem_append_left _ hj)
  have hhead := hdelivery.head
  rw [hpre, List.head?_append_of_ne_nil _ (by simp)] at hhead
  rcases call_track hroom hbuf hbitmap hsize pre i hhead hlt with
    ⟨hlp1, hlp2, bitmap2, hrun, hcall, -⟩
  rw [← seenBlocks_eq_iff hlt]
  exact ⟨hlp1, _, hlp2, hrun, hcall, fun h => if_pos h, fun h => if_neg h⟩

theorem completes_iff_fresh (hroom : Room m bufSize bitmapSize) (hbuf : hlp.buf.length = bufSize)
    (hbitmap : hlp.bitmap = some bitmap) (hsize : bitmap.length = bitmapSize)
    (hdelivery : Delivery m deliveries) : Completes m hlp deliveries ↔ Fresh m deliveries := by
  constructor
  · intro hcompletes pre i post hsplit hmissing hall
    rcases hcompletes pre i post hsplit with ⟨hlp1, ret, hlp2, hrun, hcall, hret⟩
    rcases call_of_split hroom hbuf hbitmap hsize hdelivery hsplit with
      ⟨hlp1', ret', hlp2', hrun', hcall', -, hagain⟩
    have hok := (hret hmissing).1 hall
    rw [hrun, Option.some.injEq] at hrun'
    rw [← hrun', hcall, Option.some.injEq, Prod.mk.injEq] at hcall'
    by_contra hwindow
    rw [← hcall'.1, hok] at hagain
    exact absurd (hagain fun h => hwindow h.2) nofun
  · intro hfresh pre i post hsplit
    rcases call_of_split hroom hbuf hbitmap hsize hdelivery hsplit with
      ⟨hlp1, ret, hlp2, hrun, hcall, hok, hagain⟩
    refine ⟨hlp1, ret, hlp2, hrun, hcall, fun hmissing => ⟨fun hall => ?_, fun hnot => ?_⟩⟩
    · refine hok ⟨.inr fun hmem => hmissing fun j hj => ?_,
        hfresh pre i post hsplit hmissing hall⟩
      -- a fragment that had come before is not the missing one
      have hi := sinceFirst_subset _ (List.mem_toFinset.mp hmem)
      rcases List.mem_append.mp (hall j hj) with hj | hj
      · exact hj
      · rw [List.mem_singleton.mp hj]
        exact hi
    · exact hagain fun h => hnot fun j hj => sinceFirst_subset _ (h.2 j hj)

/-! ## Messages the helper does not complete -/

/-- Calls with the first fragment and then those of `tail`, none of them refused. -/
inductive Taken (m : Message) (start : ReassHlp) : List Nat → ReassHlp → Prop where
  | first {hlp : ReassHlp} {ret : Ret} (hcall : handleFrag start (m.fragment 0) = some (ret, hlp))
      (hret : ret = .ok ∨ ret = .eagain) : Taken m start [] hlp
  | snoc {tail : List Nat} {hlp hlp' : ReassHlp} {ret : Ret} {i : Nat}
      (htaken : Taken m start tail hlp) (hcall : handleFrag hlp (m.fragment i) = some (ret, hlp'))
      (hret : ret = .ok ∨ ret = .eagain) : Taken m start (tail ++ [i]) hlp'

theorem starts_fragment (hpos : 0 < (m.block 0).length) (i : Nat) :
    (m.fragment i).starts ↔ i = 0 := by
  unfold Frag.starts
  constructor
  · exact fun h => of_decide_eq_true h.1
  · rintro rfl
    exact ⟨rfl, Nat.ne_of_gt hpos⟩

theorem seqNo_fragment_zero (m : Message) : (m.fragment 0).seqNo = m.firstSeqNo :=
  Nat.mod_eq_of_lt m.firstSeqNo_lt

theorem Taken.run_eq {start : ReassHlp} {tail : List Nat} (htaken : Taken m start tail hlp) :
    run start ((0 :: tail).map m.fragment) = some hlp := by
  induction htaken with
  | first hcall _ =>
    show (handleFrag start (m.fragment 0)).bind _ = _
    rw [hcall]
    rfl
  | snoc _ hcall _ ih =>
    rw [← List.cons_append, List.map_append, List.map_singleton, run_append, ih, Option.bind_some,
      hcall]
    rfl

theorem Taken.marked {start : ReassHlp} {tail : List Nat} (hpos : 0 < (m.block 0).length)
    (hbuf : start.buf.length < 2 ^ 64) (hbitmap : start.bitmap = some bitmap)
    (htaken : Taken m start tail hlp) :
    ∃ bitmap', Shape start.buf.length bitmap.length m.firstSeqNo hlp bitmap' ∧
      (0 ∉ tail → ∀ j ∈ 0 :: tail,
        getBit bitmap' (seqCalcDiff m.firstSeqNo (m.fragment j).seqNo) = true) := by
  induction htaken with
  | first hcall hret =>
    rcases handleFrag_kept hbuf hbitmap hcall with ⟨bitmap', hshape, -, hbit⟩
    rw [if_pos ((starts_fragment hpos 0).mpr rfl), seqNo_fragment_zero] at hshape
    refine ⟨bitmap', hshape, fun _ j hj => ?_⟩
    rw [List.mem_singleton.mp hj, ← hshape.first]
    exact (hbit hret).2
  | @snoc tail hlp hlp' ret i _ hcall hret ih =>
    rcases ih with ⟨bitmap0, hshape0, hbits0⟩
    rcases handleFrag_kept (hshape0.buf ▸ hbuf) hshape0.bits hcall with
      ⟨bitmap', hshape, hkept, hbit⟩
    have hfirst : (if (m.fragment i).starts then (m.fragment i).seqNo else hlp.firstSeqNo) =
        m.firstSeqNo := by
      split
      case isTrue hstarts => rw [(starts_fragment hpos i).mp hstarts, seqNo_fragment_zero]
      case isFalse => exact hshape0.first
    rw [hfirst, hshape0.buf, hshape0.size] at hshape
    refine ⟨bitmap', hshape, fun hzero j hj => ?_⟩
    have hi : i ≠ 0 := fun h => hzero (List.mem_append_right _ (List.mem_singleton.mpr h.symm))
    rcases List.mem_append.mp (List.cons_append ▸ hj : j ∈ (0 :: tail) ++ [i]) with hj | hj
    · exact hkept (fun h => hi ((starts_fragment hpos i).mp h)) _
        (hbits0 (fun h => hzero (List.mem_append_left _ h)) j hj)
    · rw [List.mem_singleton.mp hj, ← hshape.first]
      exact (hbit hret).2

theorem Completes.taken {start : ReassHlp} {rest : List Nat}
    (hcompletes : Completes m start (0 :: rest)) (tail : List Nat) :
    ∀ post, rest = tail ++ post → ¬m.All (0 :: tail) → ∃ hlp, Taken m start tail hlp := by
  induction tail using List.reverseRecOn with
  | nil =>
    intro post _ hmissing
    rcases hcompletes [] 0 rest rfl with ⟨hlp1, ret, hlp2, hrun, hcall, hret⟩
    have hsame : start = hlp1 := Option.some.inj hrun
    subst hsame
    have hret' := (hret fun h => absurd (h 0 (Nat.succ_pos _)) List.not_mem_nil).2 hmissing
    exact ⟨hlp2, .first hcall (.inr hret')⟩
  | append_singleton tail i ih =>
    intro post hrest hmissing
    have hsub : ¬m.All (0 :: tail) := fun hall => hmissing fun j hj => by
      rw [← List.cons_append]
      exact List.mem_append_left _ (hall j hj)
    rcases ih (i :: post) (by rw [hrest, List.append_assoc]; rfl) hsub with ⟨hlp1, htaken⟩
    rcases hcompletes (0 :: tail) i post (by rw [hrest, List.append_assoc]; rfl) with
      ⟨hlp1', ret, hlp2, hrun, hcall, hret⟩
    rw [htaken.run_eq, Option.some.injEq] at hrun
    rw [← hrun] at hcall
    exact ⟨hlp2, htaken.snoc hcall (.inr ((hret hsub).2 hmissing))⟩

theorem Completes.call {start : ReassHlp} {tail : List Nat}
    (hcompletes : Completes m start (0 :: (tail ++ i :: post))) (hi : i < m.count)
    (hnew : i ∉ 0 :: tail) :
    ∃ hlp1 ret hlp2, Taken m start tail hlp1 ∧
      handleFrag hlp1 (m.fragment i) = some (ret, hlp2) ∧ (ret = .ok ∨ ret = .eagain) ∧
      (m.All (0 :: (tail ++ [i])) → ret = .ok) := by
  have hmissing : ¬m.All (0 :: tail) := fun hall => hnew (hall i hi)
  rcases hcompletes.taken tail (i :: post) rfl hmissing with ⟨hlp1, htaken⟩
  rcases hcompletes (0 :: tail) i post rfl with ⟨hlp1', ret, hlp2, hrun, hcall, hret⟩
  rw [htaken.run_eq, Option.some.injEq] at hrun
  subst hrun
  refine ⟨hlp1, ret, hlp2, htaken, hcall, ?_, (hret hmissing).1⟩
  by_cases hall : m.All (0 :: tail ++ [i])
  · exact .inl ((hret hmissing).1 hall)
  · exact .inr ((hret hmissing).2 hall)

theorem Completes.count_le {start : ReassHlp} (hpos : 0 < (m.block 0).length)
    (hbuf : start.buf.length < 2 ^ 64) (hbitmap : start.bitmap = some bitmap)
    (hne : bitmap.length ≠ 0) (hwrap : m.NoWrap) (hdelivery : Delivery m deliveries)
    (hcompletes : Completes m start deliveries) : m.count ≤ bitmap.length := by
  by_contra hlt
  have hidx : bitmap.length < m.count := Nat.lt_of_not_le hlt
  -- the first call with the fragment just above the bitmap
  match deliveries, hdelivery, hcompletes with
  | 0 :: rest, hdelivery, hcompletes =>
    have hmem := (List.mem_cons.mp (hdelivery.all _ hidx)).resolve_left hne
    rcases List.eq_append_cons_of_mem hmem with ⟨tail, post, rfl, hnew⟩
    rcases hcompletes.call hidx (by rw [List.mem_cons, not_or]; exact ⟨hne, hnew⟩) with
      ⟨hlp1, ret, hlp2, htaken, hcall, hret, -⟩
    rcases htaken.marked hpos hbuf hbitmap with ⟨bitmap1, hshape, -⟩
    rcases handleFrag_kept (hshape.buf ▸ hbuf) hshape.bits hcall with ⟨bitmap2, hshape2, -, hbit⟩
    have hfirst := hshape2.first
    rw [if_neg fun h => hne ((starts_fragment hpos _).mp h), hshape.first] at hfirst
    have hin := (hbit hret).1
    rw [hfirst, Message.seqNo_fragment hwrap hidx, seqCalcDiff_of_le (Nat.le_add_right _ _),
      Nat.add_sub_cancel_left, hshape.size] at hin
    exact Nat.lt_irrefl _ hin

/-- The index of the fragment whose number is `0` again. -/
def Message.wrapIndex (m : Message) : Nat := 2 ^ 64 - m.firstSeqNo

theorem Message.wrapIndex_lt (hwrap : ¬m.NoWrap) : m.wrapIndex < m.count := by
  have hlt := m.firstSeqNo_lt
  unfold Message.NoWrap at hwrap
  unfold Message.wrapIndex
  omega

theorem Message.wrapIndex_pos (m : Message) : 0 < m.wrapIndex :=
  Nat.sub_pos_of_lt m.firstSeqNo_lt

/-- The fragments of a message in order, but the one whose number is `0` again comes at the end. -/
def wrapTail (m : Message) : List Nat :=
  (List.range m.count).filter fun j => j ≠ 0 ∧ j ≠ m.wrapIndex

theorem mem_wrapTail {j : Nat} : j ∈ wrapTail m ↔ j < m.count ∧ j ≠ 0 ∧ j ≠ m.wrapIndex := by
  unfold wrapTail
  rw [List.mem_filter, List.mem_range, decide_eq_true_iff]

theorem delivery_wrapTail (hwrap : ¬m.NoWrap) : Delivery m (0 :: (wrapTail m ++ [m.wrapIndex])) := by
  have hindex := Message.wrapIndex_lt hwrap
  refine ⟨rfl, fun j hj => ?_, fun j hj => ?_⟩
  · rcases List.mem_cons.mp hj with rfl | hj
    · exact Nat.succ_pos _
    · rcases List.mem_append.mp hj with hj | hj
      · exact (mem_wrapTail.mp hj).1
      · rw [List.mem_singleton.mp hj]
        exact hindex
  · rw [List.mem_cons, List.mem_append, mem_wrapTail, List.mem_singleton]
    by_cases hzero : j = 0
    · exact .inl hzero
    · by_cases hat : j = m.wrapIndex
      · exact .inr (.inr hat)
      · exact .inr (.inl ⟨hj, hzero, hat⟩)

theorem fresh_cons {rest : List Nat} (hzero : 0 ∉ rest) : Fresh m (0 :: rest) := by
  intro pre i post hsplit _ hall
  match pre, hsplit with
  | [], hsplit =>
    injection hsplit with hi hrest
    subst hi
    exact hall
  | k :: tail, hsplit =>
    injection hsplit with hk hrest
    subst hk
    have hnot : 0 ∉ tail ++ [i] := by
      intro hmem
      apply hzero
      rw [hrest]
      show 0 ∈ tail ++ i :: post
      rw [List.append_cons]
      exact List.mem_append_left _ hmem
    rw [List.cons_append, sinceFirst_cons hnot]
    exact hall

theorem seqCalcDiff_wrap (hfirst : m.firstSeqNo ≠ 0) :
    seqCalcDiff m.firstSeqNo (m.fragment m.wrapIndex).seqNo = m.wrapIndex - 1 := by
  have hlt := m.firstSeqNo_lt
  have hseq : (m.fragment m.wrapIndex).seqNo = 0 := by
    show (m.firstSeqNo + (2 ^ 64 - m.firstSeqNo)) % 2 ^ 64 = 0
    omega
  rw [hseq]
  unfold seqCalcDiff Message.wrapIndex
  rw [if_neg (by omega)]
  omega

theorem seqCalcDiff_before_wrap :
    seqCalcDiff m.firstSeqNo (m.fragment (m.wrapIndex - 1)).seqNo = m.wrapIndex - 1 := by
  have hlt := m.firstSeqNo_lt
  have hseq : (m.fragment (m.wrapIndex - 1)).seqNo = 2 ^ 64 - 1 := by
    show (m.firstSeqNo + (2 ^ 64 - m.firstSeqNo - 1)) % 2 ^ 64 = 2 ^ 64 - 1
    omega
  rw [hseq, seqCalcDiff_of_le (by omega)]
  unfold Message.wrapIndex
  omega

theorem firstSeqNo_ne_zero (hpos : 0 < (m.block 0).length) (hwrap : ¬m.NoWrap) :
    m.firstSeqNo ≠ 0 := by
  intro hzero
  unfold Message.NoWrap Message.count at hwrap
  have hfront : 0 < m.front.length := by omega
  rw [m.block_of_lt hfront] at hpos
  have hmul : m.front.length * 1 ≤ m.front.length * m.blkSize := Nat.mul_le_mul_left _ hpos
  have hsize := m.size_lt
  omega

theorem not_completes_wrap {start : ReassHlp} (hpos : 0 < (m.block 0).length)
    (hbuf : start.buf.length < 2 ^ 64) (hbitmap : start.bitmap = some bitmap)
    (hwrap : ¬m.NoWrap) : ¬Completes m start (0 :: (wrapTail m ++ [m.wrapIndex])) := by
  intro hcompletes
  have hindex := Message.wrapIndex_lt hwrap
  have hwpos := m.wrapIndex_pos
  have hnew : m.wrapIndex ∉ 0 :: wrapTail m := by
    rw [List.mem_cons, mem_wrapTail, not_or]
    exact ⟨Nat.ne_of_gt hwpos, fun h => h.2.2 rfl⟩
  rcases hcompletes.call hindex hnew with ⟨hlp1, ret, hlp2, htaken, hcall, -, hok⟩
  have hret := hok (delivery_wrapTail hwrap).all
  rcases htaken.marked hpos hbuf hbitmap with ⟨bitmap1, hshape, hbits⟩
  -- the bit of the block before it is set
  have hbefore : m.wrapIndex - 1 ∈ 0 :: wrapTail m := by
    rw [List.mem_cons, mem_wrapTail]
    omega
  have hbit := hbits (fun h => (mem_wrapTail.mp h).2.1 rfl) _ hbefore
  rw [seqCalcDiff_before_wrap] at hbit
  have hstarts : ¬(m.fragment m.wrapIndex).starts := fun h =>
    Nat.ne_of_gt hwpos ((starts_fragment hpos _).mp h)
  rcases handleFrag_cases (hshape.buf ▸ hbuf) hshape.bits hcall with
    ⟨base, bits, -, -, -, hfirst, hsame, hout⟩
  have hdiff : seqCalcDiff base.firstSeqNo (m.fragment m.wrapIndex).seqNo = m.wrapIndex - 1 := by
    rw [hfirst, if_neg hstarts, hshape.first, seqCalcDiff_wrap (firstSeqNo_ne_zero hpos hwrap)]
  rcases hout with ⟨hnot, -⟩ | ⟨hagain, -⟩ | ⟨-, hfalse, -⟩
  · exact hnot hret
  · rw [hret] at hagain
    exact absurd hagain nofun
  · rw [hdiff, hsame hstarts, hbit] at hfalse
    exact absurd hfalse nofun

/-! ## The main result -/

theorem Accepted.room (hbuf : hlp.buf.length < 2 ^ 64) (hbitmap : hlp.bitmap = some bitmap)
    (haccepted : Accepted m hlp) :
    0 < (m.block 0).length ∧ hlp.buf.length / (m.block 0).length ≤ bitmap.length * 8 % 2 ^ 64 ∧
      bitmap.length ≠ 0 := by
  rcases haccepted with ⟨ret, hlp', hcall, hret⟩
  have hne : bitmap.length ≠ 0 := by
    rcases handleFrag_kept hbuf hbitmap hcall with ⟨bitmap', -, -, hbit⟩
    have hlt := (hbit hret).1
    omega
  have hfirst : (m.fragment 0).isFirst = true := rfl
  unfold handleFrag at hcall
  rw [if_pos hfirst] at hcall
  split at hcall
  case isTrue =>
    rw [Option.some.injEq, Prod.mk.injEq] at hcall
    rw [← hcall.1] at hret
    exact absurd hret (by decide)
  case isFalse hdata =>
    split at hcall
    case isTrue =>
      rw [Option.some.injEq, Prod.mk.injEq] at hcall
      rw [← hcall.1] at hret
      exact absurd hret (by decide)
    case isFalse hspace =>
      refine ⟨Nat.pos_of_ne_zero hdata, ?_, hne⟩
      unfold noBitmapSpace at hspace
      rw [startFrag_bitmap hbitmap, Option.any_some, List.length_replicate, decide_eq_true_iff,
        Nat.not_lt] at hspace
      exact hspace

/-- A message whose first fragment is taken.  If no number wraps, a delivery is answered as it should
exactly if the message has no more fragments than the bitmap has bytes and, when the last missing
fragment comes, all have come since the last delivery of the first one.  If a number wraps, there is
a delivery without a second first fragment that is not answered as it should. -/
theorem handleFrag_completes (hbuf : hlp.buf.length < 2 ^ 64) (hbitmap : hlp.bitmap = some bitmap)
    (hbits : bitmap.length < 2 ^ 64) (hsize : m.size ≤ hlp.buf.length)
    (haccepted : Accepted m hlp) :
    (m.NoWrap → ∀ deliveries, Delivery m deliveries →
      (Completes m hlp deliveries ↔ m.count ≤ bitmap.length ∧ Fresh m deliveries)) ∧
    (¬m.NoWrap → ∃ deliveries, Delivery m deliveries ∧ Fresh m deliveries ∧
      ¬Completes m hlp deliveries) := by
  rcases haccepted.room hbuf hbitmap with ⟨hpos, hspace, hne⟩
  refine ⟨fun hwrap deliveries hdelivery => ⟨fun hcompletes => ?_, ?_⟩, fun hwrap => ?_⟩
  · have hcount := hcompletes.count_le hpos hbuf hbitmap hne hwrap hdelivery
    have hroom : Room m hlp.buf.length bitmap.length :=
      ⟨hpos, hspace, hsize, hbuf, hbits, hcount, hwrap⟩
    exact ⟨hcount, (completes_iff_fresh hroom rfl hbitmap rfl hdelivery).mp hcompletes⟩
  · rintro ⟨hcount, hfresh⟩
    have hroom : Room m hlp.buf.length bitmap.length :=
      ⟨hpos, hspace, hsize, hbuf, hbits, hcount, hwrap⟩
    exact (completes_iff_fresh hroom rfl hbitmap rfl hdelivery).mpr hfresh
  · have hzero : 0 ∉ wrapTail m ++ [m.wrapIndex] := by
      rw [List.mem_append, mem_wrapTail, List.mem_singleton, not_or]
      exact ⟨fun h => h.2.1 rfl, Nat.ne_of_lt m.wrapIndex_pos⟩
    exact ⟨_, delivery_wrapTail hwrap, fresh_cons hzero,
      not_completes_wrap hpos hbuf hbitmap hwrap⟩

end Deliveries

/-- A message of two bytes in two fragments. -/
def pair (firstSeqNo : Nat) (h : firstSeqNo < 2 ^ 64) : Message :=
  { firstSeqNo, front := [[1]], last := [2], blkSize := 1
    front_size := by simp, firstSeqNo_lt := h, size_lt := by decide }

/-- A helper for messages of two bytes. -/
def pairHlp : ReassHlp := init [0, 0] (some [0, 0]) 0

theorem delivery_pair (firstSeqNo : Nat) (h : firstSeqNo < 2 ^ 64) :
    Delivery (pair firstSeqNo h) [0, 1] := by
  have hcount : (pair firstSeqNo h).count = 2 := rfl
  refine ⟨rfl, fun i hi => ?_, fun i hi => ?_⟩
  · rw [hcount]
    simp only [List.mem_cons, List.not_mem_nil, or_false] at hi
    omega
  · rw [hcount] at hi
    simp only [List.mem_cons, List.not_mem_nil, or_false]
    omega

/-- Two fragments with the numbers 0 and 1. -/
theorem handleFrag_completes_pair : Completes (pair 0 (by decide)) pairHlp [0, 1] := by
  have hbuf : pairHlp.buf.length < 2 ^ 64 := by decide
  have hbits : ([0, 0] : List Byte).length < 2 ^ 64 := by decide
  have hsize : (pair 0 (by decide)).size ≤ pairHlp.buf.length := by decide
  have haccepted : Accepted (pair 0 (by decide)) pairHlp := ⟨.eagain, _, rfl, .inr rfl⟩
  have hwrap : (pair 0 (by decide)).NoWrap := by
    show 0 + 2 ≤ 2 ^ 64
    decide
  have hfresh : Fresh (pair 0 (by decide)) [0, 1] := fresh_cons (by decide)
  have hiff := (handleFrag_completes hbuf rfl hbits hsize haccepted).1 hwrap [0, 1]
    (delivery_pair 0 (by decide))
  exact hiff.mpr ⟨by decide, hfresh⟩

/-- Two fragments with the numbers 2^64 - 1 and 0: the second is taken for a duplicate of the
first. -/
theorem handleFrag_not_completes :
    Accepted (pair (2 ^ 64 - 1) (by decide)) pairHlp ∧
      Delivery (pair (2 ^ 64 - 1) (by decide)) [0, 1] ∧
      (pair (2 ^ 64 - 1) (by decide)).size ≤ pairHlp.buf.length ∧
      ¬Completes (pair (2 ^ 64 - 1) (by decide)) pairHlp [0, 1] := by
  refine ⟨⟨.eagain, _, rfl, .inr rfl⟩, delivery_pair _ (by decide), by decide, fun hcompletes => ?_⟩
  rcases hcompletes [0] 1 [] rfl with ⟨hlp1, ret, hlp2, hrun, hcall, hret⟩
  have hcall' : (run pairHlp ([0].map (pair (2 ^ 64 - 1) (by decide)).fragment)).bind (fun hlp =>
      (handleFrag hlp ((pair (2 ^ 64 - 1) (by decide)).fragment 1)).map Prod.fst) =
        some .eagain := by rfl
  rw [hrun, Option.bind_some, hcall] at hcall'
  have hagain : ret = .eagain := Option.some.inj hcall'
  have hmissing : ¬(pair (2 ^ 64 - 1) (by decide)).All [0] := fun h =>
    absurd (h 1 (by decide)) (by decide)
  have hok := (hret hmissing).1 (delivery_pair _ (by decide)).all
  rw [hok] at hagain
  exact absurd hagain nofun

end Reass
