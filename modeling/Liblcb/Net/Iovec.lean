import Mathlib.Data.List.Basic
import Mathlib.Data.BitVec
import Liblcb.Utils.Mem

/-!
# Vectors of blocks

`iovec_calc_size` and `iovec_set_offset` of `net/utils.c`.  The second one is to leave out the first
bytes of what the blocks hold together; it goes on cutting behind the block that it has cut.
-/

namespace Net

open Mem

/-- `struct iovec`. -/
structure Iovec where
  base : BitVec 64
  len : BitVec 64

def iovecCalcSize (iov : List Iovec) : BitVec 64 := iov.foldl (fun size b => size + b.len) 0

/-- The loop of `iovec_set_offset`. -/
def iovecSetOffsetLoop : List Iovec → BitVec 64 → List Iovec
  | [], _ => []
  | b :: iov, off =>
    if off < b.len then ⟨b.base + off, b.len - off⟩ :: iovecSetOffsetLoop iov off
    else { b with len := 0 } :: iovecSetOffsetLoop iov (off - b.len)

def iovecSetOffset (iov : List Iovec) (off : BitVec 64) : List Iovec :=
  if iov.length = 0 ∨ off = 0 then iov else iovecSetOffsetLoop iov off

/-- The bytes of a block. -/
def Iovec.bytes (mem : BitVec 64 → Byte) (b : Iovec) : List Byte :=
  (List.range b.len.toNat).map fun i => mem (b.base + BitVec.ofNat 64 i)

/-- The bytes the blocks describe together. -/
def iovecBytes (mem : BitVec 64 → Byte) (iov : List Iovec) : List Byte := iov.flatMap (·.bytes mem)

/-- How many bytes that are. -/
def total (iov : List Iovec) : Nat := (iov.map fun b => b.len.toNat).sum

section

variable {mem : BitVec 64 → Byte} {iov : List Iovec} {b : Iovec} {off : BitVec 64}

@[simp] theorem total_nil : total [] = 0 := rfl

@[simp] theorem total_cons : total (b :: iov) = b.len.toNat + total iov := by
  rw [total, List.map_cons, List.sum_cons, total]

@[simp] theorem Iovec.length_bytes : (b.bytes mem).length = b.len.toNat := by
  rw [Iovec.bytes, List.length_map, List.length_range]

@[simp] theorem iovecBytes_cons : iovecBytes mem (b :: iov) = b.bytes mem ++ iovecBytes mem iov :=
  List.flatMap_cons

theorem length_iovecBytes : (iovecBytes mem iov).length = total iov := by
  induction iov with
  | nil => rfl
  | cons b iov ih => rw [iovecBytes_cons, List.length_append, Iovec.length_bytes, ih, total_cons]

theorem foldl_len (size : BitVec 64) :
    iov.foldl (fun size b => size + b.len) size = size + BitVec.ofNat 64 (total iov) := by
  induction iov generalizing size with
  | nil => simp
  | cons b iov ih =>
    rw [List.foldl_cons, ih, total_cons, BitVec.ofNat_add, BitVec.ofNat_toNat,
      BitVec.setWidth_eq, BitVec.add_assoc]

theorem iovecCalcSize_eq : iovecCalcSize iov = BitVec.ofNat 64 (total iov) := by
  rw [iovecCalcSize, foldl_len]
  exact BitVec.zero_add _

/-! ## One block -/

theorem toNat_sub_len (h : ¬ off < b.len) : (off - b.len).toNat = off.toNat - b.len.toNat :=
  BitVec.toNat_sub_of_le (BitVec.not_lt.mp h)

theorem bytes_cut (h : off < b.len) :
    Iovec.bytes mem ⟨b.base + off, b.len - off⟩ = (b.bytes mem).drop off.toNat := by
  have hlen : (b.len - off).toNat = b.len.toNat - off.toNat :=
    BitVec.toNat_sub_of_le (BitVec.le_of_lt h)
  apply List.ext_getElem
  · simp [Iovec.bytes, hlen]
  · intro i h1 h2
    simp only [Iovec.bytes, List.getElem_map, List.getElem_range, List.getElem_drop]
    congr 1
    rw [BitVec.ofNat_add, BitVec.ofNat_toNat, BitVec.setWidth_eq, BitVec.add_assoc]

theorem bytes_skipped (b : Iovec) : Iovec.bytes mem { b with len := 0 } = [] := rfl

/-! ## The loop -/

theorem total_loop_le : ∀ {iov : List Iovec} {off : BitVec 64},
    total (iovecSetOffsetLoop iov off) ≤ total iov
  | [], _ => Nat.le_refl 0
  | b :: iov, off => by
    rw [iovecSetOffsetLoop]
    split
    · next h =>
        -- the block is cut, and the ones behind it are not longer than before
        have hle := @total_loop_le iov off
        have hlen : (b.len - off).toNat = b.len.toNat - off.toNat :=
          BitVec.toNat_sub_of_le (BitVec.le_of_lt h)
        rw [total_cons, total_cons, hlen]
        omega
    · have hle := @total_loop_le iov (off - b.len)
      rw [total_cons, total_cons]
      exact Nat.add_le_add (Nat.zero_le _) hle

theorem total_loop_lt : ∀ {iov : List Iovec} {off : BitVec 64}, off ≠ 0 → 0 < total iov →
    total (iovecSetOffsetLoop iov off) < total iov
  | [], _, _, h => absurd h (Nat.lt_irrefl 0)
  | b :: iov, off, hoff, h => by
    rw [iovecSetOffsetLoop]
    rw [total_cons] at h
    split
    · next hlt =>
        have hle := @total_loop_le iov off
        have hlen : (b.len - off).toNat = b.len.toNat - off.toNat :=
          BitVec.toNat_sub_of_le (BitVec.le_of_lt hlt)
        have hpos : off.toNat ≠ 0 := fun hz => hoff (BitVec.eq_of_toNat_eq hz)
        have hlt' := BitVec.lt_def.mp hlt
        rw [total_cons, total_cons, hlen]
        omega
    · rw [total_cons, total_cons]
      by_cases hb : b.len = 0
      · -- an empty block leaves the offset as it is
        have hzero : b.len.toNat = 0 := by rw [hb]; rfl
        have hsame : off - b.len = off := by rw [hb]; exact BitVec.sub_zero off
        rw [hzero, Nat.zero_add] at h
        rw [hsame, hzero]
        exact Nat.add_lt_add_left (total_loop_lt hoff h) 0
      · have hle := @total_loop_le iov (off - b.len)
        have hpos : b.len.toNat ≠ 0 := fun hz => hb (BitVec.eq_of_toNat_eq hz)
        show (0#64).toNat + _ < _
        rw [BitVec.toNat_ofNat]
        omega

/-- The offset ends between two blocks, or in a block with no bytes behind it. -/
def EndsClean (iov : List Iovec) (off : Nat) : Prop :=
  (∃ pre post, iov = pre ++ post ∧ total pre = off) ∨
    ∃ pre b post, iov = pre ++ b :: post ∧ total pre ≤ off ∧ off < total pre + b.len.toNat ∧
      total post = 0

theorem endsClean_cut (h : off < b.len) :
    EndsClean (b :: iov) off.toNat ↔ off = 0 ∨ total iov = 0 := by
  have hlt := BitVec.lt_def.mp h
  constructor
  -- the blocks in front are none, as the first one is longer than the offset
  · intro hclean
    rcases hclean with ⟨pre, post, heq, hpre⟩ | ⟨pre, c, post, heq, hle, -, hpost⟩
    · cases pre with
      | nil => exact .inl (BitVec.eq_of_toNat_eq hpre.symm)
      | cons c pre =>
        rw [List.cons_append, List.cons.injEq] at heq
        rw [total_cons, ← heq.1] at hpre
        omega
    · cases pre with
      | nil =>
        rw [List.nil_append, List.cons.injEq] at heq
        rw [heq.2]
        exact .inr hpost
      | cons d pre =>
        rw [List.cons_append, List.cons.injEq] at heq
        rw [total_cons, ← heq.1] at hle
        omega
  · intro hclean
    rcases hclean with hoff | hiov
    · refine .inl ⟨[], b :: iov, rfl, ?_⟩
      rw [hoff]
      rfl
    · exact .inr ⟨[], b, iov, rfl, Nat.zero_le _, by rw [total_nil, Nat.zero_add]; exact hlt, hiov⟩

theorem endsClean_skip (h : b.len.toNat ≤ off.toNat) :
    EndsClean (b :: iov) off.toNat ↔ EndsClean iov (off.toNat - b.len.toNat) := by
  constructor
  · intro hclean
    rcases hclean with ⟨pre, post, heq, hpre⟩ | ⟨pre, c, post, heq, hle, hlt, hpost⟩
    · cases pre with
      | nil =>
        rw [total_nil] at hpre
        refine .inl ⟨[], iov, rfl, ?_⟩
        rw [total_nil]
        omega
      | cons c pre =>
        rw [List.cons_append, List.cons.injEq] at heq
        rw [total_cons, ← heq.1] at hpre
        exact .inl ⟨pre, post, heq.2, by omega⟩
    · cases pre with
      | nil =>
        rw [List.nil_append, List.cons.injEq] at heq
        rw [total_nil, Nat.zero_add, ← heq.1] at hlt
        omega
      | cons d pre =>
        rw [List.cons_append, List.cons.injEq] at heq
        rw [total_cons, ← heq.1] at hle hlt
        exact .inr ⟨pre, c, post, heq.2, by omega, by omega, hpost⟩
  · intro hclean
    rcases hclean with ⟨pre, post, heq, hpre⟩ | ⟨pre, c, post, heq, hle, hlt, hpost⟩
    · refine .inl ⟨b :: pre, post, by rw [heq, List.cons_append], ?_⟩
      rw [total_cons]
      omega
    · refine .inr ⟨b :: pre, c, post, by rw [heq, List.cons_append], ?_, ?_, hpost⟩
      · rw [total_cons]
        omega
      · rw [total_cons]
        omega

theorem loop_keeps_iff :
    iovecBytes mem (iovecSetOffsetLoop iov off) = iovecBytes mem iov ↔ off = 0 ∨ total iov = 0 := by
  constructor
  · intro h
    by_contra hnot
    rw [not_or] at hnot
    have hlt := total_loop_lt hnot.1 (Nat.pos_of_ne_zero hnot.2)
    have hlen := congrArg List.length h
    rw [length_iovecBytes, length_iovecBytes] at hlen
    omega
  · intro h
    rcases h with hoff | hiov
    -- with nothing left of the offset every block is cut by nothing, or skipped when it is empty
    · rw [hoff]
      induction iov with
      | nil => rfl
      | cons b iov ih =>
        rw [iovecSetOffsetLoop]
        split
        · have hbase : b.base + 0 = b.base := BitVec.add_zero b.base
          have hlen : b.len - 0 = b.len := BitVec.sub_zero b.len
          rw [hbase, hlen, iovecBytes_cons, ih, iovecBytes_cons]
        · next hle =>
            have hzero : b.len = 0 := BitVec.le_zero_iff.mp (BitVec.not_lt.mp hle)
            have hbytes : b.bytes mem = [] := by rw [Iovec.bytes, hzero]; rfl
            have hrest : (0 : BitVec 64) - b.len = 0 := by rw [hzero]; rfl
            rw [hrest, iovecBytes_cons, ih, bytes_skipped, iovecBytes_cons, hbytes]
    · have hle := @total_loop_le iov off
      have hnil : ∀ l : List Iovec, total l = 0 → iovecBytes mem l = [] := by
        intro l hl
        rw [← @length_iovecBytes mem l] at hl
        exact List.eq_nil_of_length_eq_zero hl
      rw [hnil _ hiov, hnil _ (by omega)]

theorem loop_bytes_iff : ∀ {iov : List Iovec} {off : BitVec 64}, off.toNat ≤ total iov →
    (iovecBytes mem (iovecSetOffsetLoop iov off) = (iovecBytes mem iov).drop off.toNat ↔
      EndsClean iov off.toNat)
  | [], off, h => by
    have hoff : off.toNat = 0 := Nat.le_zero.mp h
    refine iff_of_true ?_ ?_
    · rw [hoff]
      rfl
    · exact .inl ⟨[], [], rfl, hoff.symm⟩
  | b :: iov, off, h => by
    rw [total_cons] at h
    rw [iovecSetOffsetLoop]
    split
    · next hlt =>
        have hlen : off.toNat ≤ (b.bytes mem).length := by
          rw [Iovec.length_bytes]
          exact Nat.le_of_lt (BitVec.lt_def.mp hlt)
        -- the block that is cut: the rest keeps its bytes exactly when the offset is spent
        rw [iovecBytes_cons, bytes_cut hlt, iovecBytes_cons, List.drop_append_of_le_length hlen,
          List.append_cancel_left_eq, loop_keeps_iff, endsClean_cut hlt]
    · next hge =>
        have hle : b.len.toNat ≤ off.toNat := BitVec.le_def.mp (BitVec.not_lt.mp hge)
        have hrest : (off - b.len).toNat ≤ total iov := by
          rw [toNat_sub_len hge]
          omega
        have hdrop : (iovecBytes mem (b :: iov)).drop off.toNat =
            (iovecBytes mem iov).drop (off - b.len).toNat := by
          rw [iovecBytes_cons, List.drop_append, Iovec.length_bytes, toNat_sub_len hge,
            List.drop_eq_nil_of_le (by rw [Iovec.length_bytes]; exact hle), List.nil_append]
        rw [iovecBytes_cons, bytes_skipped, List.nil_append, hdrop, loop_bytes_iff hrest,
          toNat_sub_len hge, endsClean_skip hle]

theorem bytes_setOffset :
    iovecBytes mem (iovecSetOffset iov off) = iovecBytes mem (iovecSetOffsetLoop iov off) := by
  rw [iovecSetOffset]
  split
  · next h =>
      rcases h with h | h
      · rw [List.eq_nil_of_length_eq_zero h]
        rfl
      · exact (loop_keeps_iff.mpr (.inl h)).symm
  · rfl

/-- The bytes of the blocks lose exactly the first `off` ones, and `iovec_calc_size` goes down by
`off`, in exactly the lists whose block that is cut has no bytes behind it: the offset is not spent
there, and the blocks behind are cut by it as well. -/
theorem iovecSetOffset_iff (mem : BitVec 64 → Byte) {iov : List Iovec} {off : BitVec 64}
    (h : off.toNat ≤ total iov) :
    (iovecBytes mem (iovecSetOffset iov off) = (iovecBytes mem iov).drop off.toNat ∧
      iovecCalcSize (iovecSetOffset iov off) = iovecCalcSize iov - off) ↔
    EndsClean iov off.toNat := by
  rw [bytes_setOffset, loop_bytes_iff h, and_iff_left_iff_imp]
  intro hclean
  have hbytes := (@loop_bytes_iff mem iov off h).mpr hclean
  have hlen := congrArg List.length hbytes
  rw [← bytes_setOffset, length_iovecBytes, List.length_drop, length_iovecBytes] at hlen
  rw [iovecCalcSize_eq, iovecCalcSize_eq, hlen]
  calc BitVec.ofNat 64 (total iov - off.toNat)
      = BitVec.ofNat 64 (total iov) - BitVec.ofNat 64 off.toNat :=
        (BitVec.ofNat_sub_ofNat_of_le _ _ off.isLt h).symm
    _ = BitVec.ofNat 64 (total iov) - off := by rw [BitVec.ofNat_toNat, BitVec.setWidth_eq]

/-- Two blocks of four bytes, the first of them without its first byte. -/
theorem iovecSetOffset_inside :
    (iovecBytes (fun i => i.setWidth 8) (iovecSetOffset [⟨0, 4⟩, ⟨8, 0⟩] 1) =
        (iovecBytes (fun i => i.setWidth 8) [⟨0, 4⟩, ⟨8, 0⟩]).drop (1#64).toNat ∧
      iovecCalcSize (iovecSetOffset [⟨0, 4⟩, ⟨8, 0⟩] 1) = iovecCalcSize [⟨0, 4⟩, ⟨8, 0⟩] - 1) ↔
    EndsClean [⟨0, 4⟩, ⟨8, 0⟩] (1#64).toNat :=
  iovecSetOffset_iff _ (by decide)

/-- Two blocks of four bytes: one byte is cut from each. -/
theorem iovecSetOffset_twice :
    ¬ (∀ (mem : BitVec 64 → Byte) (iov : List Iovec) (off : BitVec 64), off.toNat ≤ total iov →
      iovecBytes mem (iovecSetOffset iov off) = (iovecBytes mem iov).drop off.toNat) := by
  intro h
  have hbytes := h (fun i => i.setWidth 8) [⟨0, 4⟩, ⟨8, 4⟩] 1 (by decide)
  exact absurd hbytes (by decide)

end

end Net
