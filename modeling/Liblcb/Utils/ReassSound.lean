import Liblcb.Utils.Reass
import Mathlib.Data.List.Perm.Subperm
import Mathlib.Data.List.Nodup
import Mathlib.Algebra.Order.BigOperators.Group.List
import Mathlib.Algebra.Order.Group.Nat

/-!
# A complete message is complete

When `reass_hlp_handle_frag` returns `0`, all fragments of the message are in the buffer, provided
that no number wraps and no fragment lies above the last one.
-/

namespace Reass

open Mem Buffer

/-! ## The bitmap -/

theorem length_setBit (bitmap : List Byte) (i : Nat) :
    (setBit bitmap i).length = bitmap.length := List.length_modify ..

theorem one_shiftLeft_getLsbD : ∀ a < 8, ∀ b < 8, (1#8 <<< a).getLsbD b = decide (a = b) := by
  decide

theorem getBit_setBit {bitmap : List Byte} {i : Nat} (hi : i / 8 < bitmap.length) (j : Nat) :
    getBit (setBit bitmap i) j = (decide (i = j) || getBit bitmap j) := by
  unfold getBit setBit
  rw [List.getElem?_modify]
  by_cases hbyte : i / 8 = j / 8
  · rw [← hbyte, List.getElem?_eq_getElem hi]
    simp only [if_true, Option.map_eq_map, Option.map_some, Option.any_some, BitVec.getLsbD_or]
    have hbit : (1#8 <<< (i % 8)).getLsbD (j % 8) = decide (i = j) := by
      rw [one_shiftLeft_getLsbD _ (Nat.mod_lt _ (by decide)) _ (Nat.mod_lt _ (by decide)),
        decide_eq_decide]
      omega
    rw [hbit, Bool.or_comm]
  · have hne : i ≠ j := fun h => hbyte (by rw [h])
    cases bitmap[j / 8]? with
    | none => simp [hne]
    | some b => simp [hne, hbyte]

theorem getBit_replicate (n j : Nat) : getBit (List.replicate n 0) j = false := by
  unfold getBit
  rw [List.getElem?_replicate]
  split
  · simp
  · rfl

/-! ## What a call does -/

/-- The helper after it has stored a fragment. -/
def stored (hlp : ReassHlp) (bitmap : List Byte) (frag : Frag) : ReassHlp :=
  let blkIdx := seqCalcDiff hlp.firstSeqNo frag.seqNo
  let setsLast := frag.isLast ∧ hlp.sequenceSize = 0
  { hlp with
    bitmap := some (setBit bitmap blkIdx)
    sequenceSize :=
      if setsLast then blkIdx * hlp.blkSize + frag.data.length else hlp.sequenceSize
    lastSeqNo := if setsLast then frag.seqNo else hlp.lastSeqNo
    buf := splice hlp.buf (blkIdx * hlp.blkSize) frag.data
    recvCnt := (hlp.recvCnt + frag.data.length) % 2 ^ 64
    blkCnt := (hlp.blkCnt + 1) % 2 ^ 64
    curSeqNo := frag.seqNo }

variable {hlp hlp' : ReassHlp} {bitmap : List Byte} {frag : Frag} {ret : Ret}

theorem addData_eq (hbuf : hlp.buf.length < 2 ^ 64)
    (hfit : (seqCalcDiff hlp.firstSeqNo frag.seqNo * hlp.blkSize + frag.data.length) % 2 ^ 64 ≤
      hlp.buf.length) :
    addData { hlp with bitmap := some (setBit bitmap (seqCalcDiff hlp.firstSeqNo frag.seqNo)) } frag
        (seqCalcDiff hlp.firstSeqNo frag.seqNo * hlp.blkSize) =
      if hlp.buf.length < seqCalcDiff hlp.firstSeqNo frag.seqNo * hlp.blkSize + frag.data.length
      then none
      else some (verdict (stored hlp bitmap frag), stored hlp bitmap frag) := by
  unfold addData markLast stored
  by_cases hlast : frag.isLast ∧ hlp.sequenceSize = 0
  · simp only [hlast, and_self, if_true, true_and]
    rw [if_neg (by omega)]
    split
    case isTrue => rfl
    case isFalse hin =>
      have hmod : (seqCalcDiff hlp.firstSeqNo frag.seqNo * hlp.blkSize + frag.data.length) %
          2 ^ 64 = seqCalcDiff hlp.firstSeqNo frag.seqNo * hlp.blkSize + frag.data.length :=
        Nat.mod_eq_of_lt (by omega)
      rw [hmod]
  · simp only [hlast, if_false, false_and]

theorem mul_lt_of_check {blkIdx blkSize : Nat}
    (hcheck : ¬(2 ^ 32 ≤ blkIdx ||| blkSize ∧ blkIdx * blkSize % 2 ^ 64 / blkSize ≠ blkIdx)) :
    blkIdx * blkSize < 2 ^ 64 := by
  by_cases hlarge : 2 ^ 32 ≤ blkIdx ||| blkSize
  · have hdiv : blkIdx * blkSize % 2 ^ 64 / blkSize = blkIdx := by
      by_contra h
      exact hcheck ⟨hlarge, h⟩
    calc
      blkIdx * blkSize = blkIdx * blkSize % 2 ^ 64 / blkSize * blkSize := by rw [hdiv]
      _ ≤ blkIdx * blkSize % 2 ^ 64 := Nat.div_mul_le_self _ _
      _ < 2 ^ 64 := Nat.mod_lt _ (by decide)
  · have hleft : blkIdx ≤ blkIdx ||| blkSize := Nat.left_le_or
    have hright : blkSize ≤ blkIdx ||| blkSize := Nat.right_le_or
    calc
      blkIdx * blkSize ≤ blkIdx * 2 ^ 32 := Nat.mul_le_mul_left _ (by omega)
      _ < 2 ^ 64 := by omega

theorem placeFrag_cases (hbuf : hlp.buf.length < 2 ^ 64) (hbitmap : hlp.bitmap = some bitmap)
    (h : placeFrag hlp frag = some (ret, hlp')) :
    ((ret = .einval ∨ ret = .erange) ∧ hlp' = hlp) ∨
    (ret = .eagain ∧ seqCalcDiff hlp.firstSeqNo frag.seqNo < bitmap.length ∧
      getBit bitmap (seqCalcDiff hlp.firstSeqNo frag.seqNo) = true ∧
      hlp' = { hlp with dupCnt := (hlp.dupCnt + 1) % 2 ^ 64 }) ∨
    (seqCalcDiff hlp.firstSeqNo frag.seqNo < bitmap.length ∧
      getBit bitmap (seqCalcDiff hlp.firstSeqNo frag.seqNo) = false ∧
      seqCalcDiff hlp.firstSeqNo frag.seqNo * hlp.blkSize + frag.data.length ≤ hlp.buf.length ∧
      hlp' = stored hlp bitmap frag ∧ ret = verdict hlp') := by
  unfold placeFrag at h
  simp only [hbitmap] at h
  split at h
  case isTrue => exact absurd h nofun
  case isFalse =>
    split at h
    case isTrue =>
      rw [Option.some.injEq, Prod.mk.injEq] at h
      exact .inl ⟨.inl h.1.symm, h.2.symm⟩
    case isFalse hcheck =>
      have hmul := mul_lt_of_check hcheck
      rw [Nat.mod_eq_of_lt hmul] at h
      split at h
      case isTrue =>
        rw [Option.some.injEq, Prod.mk.injEq] at h
        exact .inl ⟨.inl h.1.symm, h.2.symm⟩
      case isFalse hfit =>
        split at h
        case isTrue =>
          rw [Option.some.injEq, Prod.mk.injEq] at h
          exact .inl ⟨.inr h.1.symm, h.2.symm⟩
        case isFalse hidx =>
          split at h
          case isTrue hbit =>
            rw [Option.some.injEq, Prod.mk.injEq] at h
            exact .inr (.inl ⟨h.1.symm, by omega, hbit, by rw [← h.2, hbitmap]⟩)
          case isFalse hbit =>
            rw [addData_eq hbuf (by omega)] at h
            split at h
            case isTrue => exact absurd h nofun
            case isFalse hin =>
              rw [Option.some.injEq, Prod.mk.injEq] at h
              refine .inr (.inr ⟨by omega, Bool.eq_false_iff.mpr hbit, by omega, h.2.symm, ?_⟩)
              rw [← h.2]
              exact h.1.symm

/-! ## Runs -/

def Frag.starts (frag : Frag) : Prop := frag.isFirst = true ∧ frag.data.length ≠ 0

instance (frag : Frag) : Decidable frag.starts := inferInstanceAs (Decidable (_ ∧ _))

/-- The fragments since the most recent one that started a message. -/
def since (frags : List Frag) : List Frag :=
  frags.foldl (fun window frag => if frag.starts then [frag] else window ++ [frag]) []

def baseSeqNo : List Frag → Nat
  | [] => 0
  | frag :: _ => if frag.starts then frag.seqNo else 0

/-- The block index of a fragment, modulo the range of the numbers. -/
def Frag.index (frag : Frag) (window : List Frag) : Nat :=
  (frag.seqNo + 2 ^ 64 - baseSeqNo window) % 2 ^ 64

theorem since_append (frags : List Frag) (frag : Frag) :
    since (frags ++ [frag]) = if frag.starts then [frag] else since frags ++ [frag] := by
  unfold since
  rw [List.foldl_append]
  rfl

theorem baseSeqNo_append {window : List Frag} {frag : Frag} (h : ¬frag.starts) :
    baseSeqNo (window ++ [frag]) = baseSeqNo window := by
  match window with
  | [] => exact if_neg h
  | _ :: _ => rfl

/-- The message is in the buffer: fragments received since its start, with the indices from `0` to
that of a last one, and their data one after the other. -/
def Complete (frags : List Frag) (hlp : ReassHlp) : Prop :=
  ∃ parts : List Frag,
    (∀ i frag, parts[i]? = some frag → frag ∈ since frags ∧ frag.index (since frags) = i) ∧
    (∃ last, parts.getLast? = some last ∧ last.isLast = true) ∧
    hlp.sequenceSize = (parts.flatMap Frag.data).length ∧
    hlp.buf.take hlp.sequenceSize = parts.flatMap Frag.data

/-- A fragment that is no first one does not come before the first one's number, and does not come
after the last one of the message; there is one last one. -/
def InOrder (hlp : ReassHlp) (frag : Frag) : Prop :=
  frag.isFirst = true ∨
    hlp.firstSeqNo ≤ frag.seqNo ∧
    (hlp.sequenceSize ≠ 0 → frag.seqNo ≤ hlp.lastSeqNo ∧
      (frag.isLast = true → frag.seqNo = hlp.lastSeqNo)) ∧
    (hlp.sequenceSize = 0 → frag.isLast = true → ∀ bitmap, hlp.bitmap = some bitmap →
      ∀ j, frag.seqNo - hlp.firstSeqNo < j → j < bitmap.length → getBit bitmap j = false)

/-- The helper after the calls with the fragments, all of them in order. -/
inductive Reach (start : ReassHlp) : List Frag → ReassHlp → Prop where
  | nil : Reach start [] start
  | snoc {frags : List Frag} {hlp hlp' : ReassHlp} (frag : Frag) (ret : Ret)
      (hreach : Reach start frags hlp) (horder : InOrder hlp frag)
      (hcall : handleFrag hlp frag = some (ret, hlp')) : Reach start (frags ++ [frag]) hlp'

/-- How the helper and the stored fragments belong together. -/
structure Inv (hlp : ReassHlp) (window : List Frag) (parts : List Frag) : Prop where
  first : hlp.firstSeqNo = baseSeqNo window
  mem : ∀ f ∈ parts, f ∈ window
  ge : ∀ f ∈ parts, hlp.firstSeqNo ≤ f.seqNo
  nodup : (parts.map Frag.seqNo).Nodup
  bits : ∃ bitmap, hlp.bitmap = some bitmap ∧ bitmap.length < 2 ^ 64 ∧
    (∀ f ∈ parts, f.seqNo - hlp.firstSeqNo < bitmap.length) ∧
    ∀ j, j < bitmap.length → (getBit bitmap j = true ↔ hlp.firstSeqNo + j ∈ parts.map Frag.seqNo)
  size : hlp.buf.length < 2 ^ 64
  stored : ∀ f ∈ parts,
    (f.seqNo - hlp.firstSeqNo) * hlp.blkSize + f.data.length ≤ hlp.buf.length ∧
    (hlp.buf.drop ((f.seqNo - hlp.firstSeqNo) * hlp.blkSize)).take f.data.length = f.data
  small : ∀ f ∈ parts, f.data.length ≤ hlp.blkSize ∨
    hlp.sequenceSize ≠ 0 ∧ f.seqNo = hlp.lastSeqNo
  blkCnt : hlp.blkCnt = parts.length % 2 ^ 64
  recvCnt : hlp.recvCnt = (parts.map fun f => f.data.length).sum % 2 ^ 64
  last : hlp.sequenceSize ≠ 0 → (∀ f ∈ parts, f.seqNo ≤ hlp.lastSeqNo) ∧
    ∃ l ∈ parts, l.isLast = true ∧ l.seqNo = hlp.lastSeqNo ∧
      hlp.sequenceSize = (l.seqNo - hlp.firstSeqNo) * hlp.blkSize + l.data.length

variable {window parts : List Frag}

theorem seqCalcDiff_of_le {first seqNo : Nat} (h : first ≤ seqNo) :
    seqCalcDiff first seqNo = seqNo - first := if_pos h

theorem Inv.stats (h : Inv hlp window parts) (dupCnt reordersCnt : Nat) :
    Inv { hlp with dupCnt, reordersCnt } window parts :=
  ⟨h.first, h.mem, h.ge, h.nodup, h.bits, h.size, h.stored, h.small, h.blkCnt, h.recvCnt, h.last⟩

theorem Inv.mono (h : Inv hlp window parts) {window' : List Frag}
    (hbase : baseSeqNo window' = baseSeqNo window) (hsub : ∀ f ∈ window, f ∈ window') :
    Inv hlp window' parts :=
  ⟨h.first.trans hbase.symm, fun f hf => hsub f (h.mem f hf), h.ge, h.nodup, h.bits, h.size,
    h.stored, h.small, h.blkCnt, h.recvCnt, h.last⟩

/-- What the code and the order promise about a fragment that is stored. -/
structure Placed (hlp : ReassHlp) (bitmap : List Byte) (frag : Frag) : Prop where
  ge : hlp.firstSeqNo ≤ frag.seqNo
  range : frag.seqNo - hlp.firstSeqNo < bitmap.length
  new : getBit bitmap (frag.seqNo - hlp.firstSeqNo) = false
  fits : (frag.seqNo - hlp.firstSeqNo) * hlp.blkSize + frag.data.length ≤ hlp.buf.length
  block : frag.isLast = true ∨ hlp.blkSize = frag.data.length
  below : hlp.sequenceSize ≠ 0 → frag.seqNo ≤ hlp.lastSeqNo ∧
    (frag.isLast = true → frag.seqNo = hlp.lastSeqNo)
  above : hlp.sequenceSize = 0 → frag.isLast = true →
    ∀ j, frag.seqNo - hlp.firstSeqNo < j → j < bitmap.length → getBit bitmap j = false

section Store

variable (hinv : Inv hlp window parts) (hbitmap : hlp.bitmap = some bitmap)
include hinv hbitmap

theorem Inv.bit_iff {j : Nat} (hj : j < bitmap.length) :
    getBit bitmap j = true ↔ hlp.firstSeqNo + j ∈ parts.map Frag.seqNo := by
  rcases hinv.bits with ⟨bm, hbm, -, -, hbits⟩
  rw [hbitmap, Option.some.injEq] at hbm
  rw [hbm] at hj ⊢
  exact hbits j hj

theorem Inv.range {f : Frag} (hf : f ∈ parts) : f.seqNo - hlp.firstSeqNo < bitmap.length := by
  rcases hinv.bits with ⟨bm, hbm, -, hlt, -⟩
  rw [hbitmap, Option.some.injEq] at hbm
  rw [hbm]
  exact hlt f hf

theorem Inv.bit_of_mem {f : Frag} (hf : f ∈ parts) :
    getBit bitmap (f.seqNo - hlp.firstSeqNo) = true := by
  have hge := hinv.ge f hf
  rw [hinv.bit_iff hbitmap (hinv.range hbitmap hf)]
  rw [show hlp.firstSeqNo + (f.seqNo - hlp.firstSeqNo) = f.seqNo by omega]
  exact List.mem_map.mpr ⟨f, hf, rfl⟩

variable (hplaced : Placed hlp bitmap frag)
include hplaced

theorem Inv.seqNo_ne {f : Frag} (hf : f ∈ parts) : f.seqNo ≠ frag.seqNo := by
  intro h
  have hbit := hinv.bit_of_mem hbitmap hf
  rw [h, hplaced.new] at hbit
  exact absurd hbit nofun

theorem Inv.disjoint {f : Frag} (hf : f ∈ parts) :
    (f.seqNo - hlp.firstSeqNo) * hlp.blkSize + f.data.length ≤
        (frag.seqNo - hlp.firstSeqNo) * hlp.blkSize ∨
      (frag.seqNo - hlp.firstSeqNo) * hlp.blkSize + frag.data.length ≤
        (f.seqNo - hlp.firstSeqNo) * hlp.blkSize := by
  have hge := hinv.ge f hf
  have hge' := hplaced.ge
  have hne := hinv.seqNo_ne hbitmap hplaced hf
  have hmul : ∀ {i j : Nat}, i < j → i * hlp.blkSize + hlp.blkSize ≤ j * hlp.blkSize := by
    intro i j hij
    rw [← Nat.succ_mul]
    exact Nat.mul_le_mul_right _ hij
  by_cases hlt : f.seqNo < frag.seqNo
  · left
    rcases hinv.small f hf with hsmall | ⟨hseq, hlast⟩
    · have := @hmul (f.seqNo - hlp.firstSeqNo) (frag.seqNo - hlp.firstSeqNo) (by omega)
      omega
    · have := (hplaced.below hseq).1
      omega
  · right
    have hblock : frag.data.length = hlp.blkSize := by
      rcases hplaced.block with hlast | hblock
      · -- a last fragment below a stored one
        exfalso
        by_cases hseq : hlp.sequenceSize = 0
        · have hbit := hplaced.above hseq hlast (f.seqNo - hlp.firstSeqNo) (by omega)
            (hinv.range hbitmap hf)
          rw [hinv.bit_of_mem hbitmap hf] at hbit
          exact absurd hbit nofun
        · have h1 := (hplaced.below hseq).2 hlast
          have h2 := (hinv.last hseq).1 f hf
          omega
      · exact hblock.symm
    have := @hmul (frag.seqNo - hlp.firstSeqNo) (f.seqNo - hlp.firstSeqNo) (by omega)
    omega

/-- Storing a fragment keeps the invariant. -/
theorem Inv.store {window' : List Frag} (hbase : baseSeqNo window' = baseSeqNo window)
    (hsub : ∀ f ∈ window, f ∈ window') (hmem : frag ∈ window') :
    Inv (Reass.stored hlp bitmap frag) window' (parts ++ [frag]) := by
  have hdiff := seqCalcDiff_of_le hplaced.ge
  have hge := hplaced.ge
  have hfits := hplaced.fits
  have hforall : ∀ {P : Frag → Prop}, (∀ f ∈ parts, P f) → P frag → ∀ f ∈ parts ++ [frag], P f := by
    intro P hparts hfrag f hf
    rcases List.mem_append.mp hf with hf | hf
    · exact hparts f hf
    · rw [List.mem_singleton.mp hf]
      exact hfrag
  -- a last fragment that does not set the size would be a second one with its number
  have hsets : frag.isLast = true → hlp.sequenceSize = 0 := by
    intro hlast
    by_contra hseq
    rcases (hinv.last hseq).2 with ⟨l, hl, -, hlno, -⟩
    exact hinv.seqNo_ne hbitmap hplaced hl (hlno.trans ((hplaced.below hseq).2 hlast).symm)
  unfold Reass.stored
  simp only [hdiff]
  refine ⟨hinv.first.trans hbase.symm, ?_, ?_, ?_, ?_, ?_, ?_, ?_, ?_, ?_, ?_⟩
  · exact hforall (fun f hf => hsub f (hinv.mem f hf)) hmem
  · exact hforall hinv.ge hge
  · rw [List.map_append, List.nodup_append]
    refine ⟨hinv.nodup, List.nodup_singleton _, ?_⟩
    intro a ha b hb
    rcases List.mem_map.mp ha with ⟨f, hf, rfl⟩
    rw [List.mem_singleton.mp hb]
    exact hinv.seqNo_ne hbitmap hplaced hf
  · rcases hinv.bits with ⟨bm, hbm, hlen, -, -⟩
    rw [hbitmap, Option.some.injEq] at hbm
    have hrange := hplaced.range
    refine ⟨_, rfl, by rw [length_setBit, hbm]; exact hlen, ?_, ?_⟩
    · rw [length_setBit]
      exact hforall (fun f hf => hinv.range hbitmap hf) hrange
    · intro j hj
      rw [length_setBit] at hj
      rw [getBit_setBit (by omega), Bool.or_eq_true, decide_eq_true_iff, hinv.bit_iff hbitmap hj,
        List.map_append, List.mem_append]
      show _ ∨ _ ↔ _ ∨ hlp.firstSeqNo + j ∈ [frag.seqNo]
      have hindex : frag.seqNo - hlp.firstSeqNo = j ↔ hlp.firstSeqNo + j = frag.seqNo := by omega
      rw [List.mem_singleton, hindex, or_comm]
  · show (splice _ _ _).length < _
    rw [length_splice hfits]
    exact hinv.size
  · show ∀ f ∈ parts ++ [frag], _ ≤ (splice _ _ _).length ∧ _
    rw [length_splice hfits]
    apply hforall
    · intro f hf
      refine ⟨(hinv.stored f hf).1, ?_⟩
      rw [take_drop_splice_of_disjoint hfits (hinv.disjoint hbitmap hplaced hf)]
      exact (hinv.stored f hf).2
    · exact ⟨hfits, take_drop_splice hfits⟩
  · apply hforall
    · intro f hf
      rcases hinv.small f hf with hsmall | ⟨hseq, hlast⟩
      · exact .inl hsmall
      · right
        have hnot : ¬(frag.isLast = true ∧ hlp.sequenceSize = 0) := fun h => hseq h.2
        simp only [if_neg hnot]
        exact ⟨hseq, hlast⟩
    · rcases hplaced.block with hlast | hblock
      · have hset : frag.isLast = true ∧ hlp.sequenceSize = 0 := ⟨hlast, hsets hlast⟩
        simp only [if_pos hset]
        by_cases hzero : (frag.seqNo - hlp.firstSeqNo) * hlp.blkSize + frag.data.length = 0
        · exact .inl (by omega)
        · exact .inr ⟨hzero, trivial⟩
      · exact .inl (Nat.le_of_eq hblock.symm)
  · have hcnt := hinv.blkCnt
    rw [List.length_append, List.length_singleton]
    show (hlp.blkCnt + 1) % 2 ^ 64 = _
    omega
  · have hcnt := hinv.recvCnt
    rw [List.map_append, List.sum_append]
    show (hlp.recvCnt + frag.data.length) % 2 ^ 64 =
      (_ + [frag.data.length].sum) % 2 ^ 64
    rw [List.sum_singleton]
    omega
  · by_cases hset : frag.isLast = true ∧ hlp.sequenceSize = 0
    · simp only [if_pos hset]
      intro hne
      refine ⟨hforall ?_ (Nat.le_refl _), frag, by simp, hset.1, rfl, rfl⟩
      intro f hf
      by_contra hgt
      have hbit := hplaced.above hset.2 hset.1 (f.seqNo - hlp.firstSeqNo) (by omega)
        (hinv.range hbitmap hf)
      rw [hinv.bit_of_mem hbitmap hf] at hbit
      exact absurd hbit nofun
    · simp only [if_neg hset]
      intro hne
      rcases hinv.last hne with ⟨hle, l, hl, hlast⟩
      exact ⟨hforall hle (hplaced.below hne).1, l, List.mem_append_left _ hl, hlast⟩

end Store

theorem inv_startFrag (hbitmap : hlp.bitmap = some bitmap) (hlen : bitmap.length < 2 ^ 64)
    (hbuf : hlp.buf.length < 2 ^ 64) (hstarts : frag.starts) :
    Inv (startFrag hlp frag) [frag] [] := by
  refine ⟨(if_pos hstarts).symm, nofun, nofun, List.nodup_nil, ?_, hbuf, nofun, nofun, rfl, rfl,
    fun h => absurd rfl h⟩
  refine ⟨List.replicate bitmap.length 0, ?_, ?_, nofun, ?_⟩
  · show hlp.bitmap.map _ = _
    rw [hbitmap]
    rfl
  · rw [List.length_replicate]
    exact hlen
  · intro j _
    rw [getBit_replicate]
    exact ⟨nofun, nofun⟩

theorem Inv.place {window' : List Frag} (hinv : Inv hlp window parts)
    (hbase : baseSeqNo window' = baseSeqNo window) (hsub : ∀ f ∈ window, f ∈ window')
    (hmem : frag ∈ window') (hge : hlp.firstSeqNo ≤ frag.seqNo)
    (hblock : frag.isLast = true ∨ hlp.blkSize = frag.data.length)
    (hbelow : hlp.sequenceSize ≠ 0 → frag.seqNo ≤ hlp.lastSeqNo ∧
      (frag.isLast = true → frag.seqNo = hlp.lastSeqNo))
    (habove : hlp.sequenceSize = 0 → frag.isLast = true → ∀ bitmap, hlp.bitmap = some bitmap →
      ∀ j, frag.seqNo - hlp.firstSeqNo < j → j < bitmap.length → getBit bitmap j = false)
    (hcall : placeFrag hlp frag = some (ret, hlp')) :
    ∃ parts', Inv hlp' window' parts' ∧ (ret = .ok → verdict hlp' = .ok) := by
  rcases hinv.bits with ⟨bitmap, hbitmap, -⟩
  have hdiff := seqCalcDiff_of_le hge
  rcases placeFrag_cases hinv.size hbitmap hcall with ⟨hret, rfl⟩ | ⟨hret, -, -, rfl⟩ |
    ⟨hrange, hnew, hfits, rfl, hret⟩
  · refine ⟨parts, hinv.mono hbase hsub, fun h => ?_⟩
    rw [h] at hret
    exact absurd hret (by decide)
  · refine ⟨parts, (hinv.mono hbase hsub).stats _ _, fun h => ?_⟩
    rw [h] at hret
    exact absurd hret nofun
  · rw [hdiff] at hrange hnew hfits
    have hplaced : Placed hlp bitmap frag :=
      ⟨hge, hrange, hnew, hfits, hblock, hbelow, fun h1 h2 => habove h1 h2 bitmap hbitmap⟩
    exact ⟨parts ++ [frag], hinv.store hbitmap hplaced hbase hsub hmem, fun h => by rw [← hret, h]⟩

/-- One call. -/
theorem Inv.step (hinv : Inv hlp window parts) (horder : InOrder hlp frag)
    (hcall : handleFrag hlp frag = some (ret, hlp')) :
    ∃ parts', Inv hlp' (if frag.starts then [frag] else window ++ [frag]) parts' ∧
      (ret = .ok → verdict hlp' = .ok) := by
  rcases hinv.bits with ⟨bitmap, hbitmap, hlen, -⟩
  unfold handleFrag at hcall
  split at hcall
  case isTrue hfirst =>
    split at hcall
    case isTrue hempty =>
      have hnot : ¬frag.starts := fun h => h.2 hempty
      rw [Option.some.injEq, Prod.mk.injEq] at hcall
      rcases hcall with ⟨rfl, rfl⟩
      rw [if_neg hnot]
      exact ⟨parts, hinv.mono (baseSeqNo_append hnot) (fun f hf => List.mem_append_left _ hf),
        nofun⟩
    case isFalse hempty =>
      have hstarts : frag.starts := ⟨hfirst, hempty⟩
      have hstart := inv_startFrag hbitmap hlen hinv.size hstarts
      rw [if_pos hstarts]
      split at hcall
      case isTrue =>
        rw [Option.some.injEq, Prod.mk.injEq] at hcall
        rcases hcall with ⟨rfl, rfl⟩
        exact ⟨[], hstart, nofun⟩
      case isFalse =>
        -- the new message has no blocks yet
        refine hstart.place rfl (fun _ hf => hf) (List.mem_singleton.mpr rfl) (Nat.le_refl _)
          (.inr rfl) (fun h => absurd rfl h) ?_ hcall
        intro _ _ bm hbm j _ _
        rcases hstart.bits with ⟨bm', hbm', -, -, hbits⟩
        rw [hbm, Option.some.injEq] at hbm'
        rw [Bool.eq_false_iff, hbm']
        intro hbit
        exact absurd ((hbits j (by rw [← hbm']; assumption)).mp hbit) nofun
  case isFalse hfirst =>
    have hnot : ¬frag.starts := fun h => hfirst h.1
    rw [if_neg hnot]
    rcases horder with horder | ⟨hge, hbelow, habove⟩
    · exact absurd horder hfirst
    · have hmono := hinv.mono (baseSeqNo_append hnot) (fun f hf => List.mem_append_left [frag] hf)
      split at hcall
      case isTrue =>
        rw [Option.some.injEq, Prod.mk.injEq] at hcall
        rcases hcall with ⟨rfl, rfl⟩
        exact ⟨parts, hmono, nofun⟩
      case isFalse hblock =>
        have hblock' : frag.isLast = true ∨ hlp.blkSize = frag.data.length := by
          by_cases hlast : frag.isLast = true
          · exact .inl hlast
          · right
            by_contra h
            exact hblock ⟨Bool.eq_false_iff.mpr hlast, h⟩
        have hcount : ∃ reordersCnt, countReorder hlp frag = { hlp with reordersCnt } := by
          unfold countReorder
          split
          · exact ⟨_, rfl⟩
          · exact ⟨hlp.reordersCnt, rfl⟩
        rcases hcount with ⟨reordersCnt, hcount⟩
        rw [hcount] at hcall
        exact (hmono.stats hlp.dupCnt reordersCnt).place rfl (fun _ hf => hf)
          (List.mem_append_right _ (List.mem_singleton.mpr rfl)) hge hblock' hbelow habove hcall

/-! ## The message -/

theorem exists_perm_map {α β : Type} {key : α → β} {ks keys : List β} (hperm : ks.Perm keys) :
    ∀ l : List α, l.map key = ks → ∃ l' : List α, l'.Perm l ∧ l'.map key = keys := by
  induction hperm with
  | nil => exact fun l h => ⟨l, .refl _, h⟩
  | cons k _ ih =>
    intro l h
    match l, h with
    | a :: l, h =>
      rw [List.map_cons] at h
      injection h with ha hl
      rcases ih l hl with ⟨l', hl', hmap⟩
      exact ⟨a :: l', hl'.cons a, by rw [List.map_cons, ha, hmap]⟩
  | swap k k' keys =>
    intro l h
    match l, h with
    | a :: b :: l, h =>
      rw [List.map_cons, List.map_cons] at h
      injection h with ha h
      injection h with hb hl
      exact ⟨b :: a :: l, .swap a b l, by rw [List.map_cons, List.map_cons, ha, hb, hl]⟩
  | trans _ _ ih1 ih2 =>
    intro l h
    rcases ih1 l h with ⟨l1, hl1, hmap1⟩
    rcases ih2 l1 hmap1 with ⟨l2, hl2, hmap2⟩
    exact ⟨l2, hl2.trans hl1, hmap2⟩

theorem eq_of_sum_eq {blkSize : Nat} : (sizes : List Nat) → (∀ n ∈ sizes, n ≤ blkSize) →
    sizes.length * blkSize ≤ sizes.sum → ∀ n ∈ sizes, n = blkSize
  | [], _, _ => nofun
  | n :: sizes, hle, hsum => by
    have hn := hle n List.mem_cons_self
    have htail : ∀ m ∈ sizes, m ≤ blkSize := fun m hm => hle m (List.mem_cons_of_mem _ hm)
    have hmax : sizes.sum ≤ sizes.length * blkSize := List.sum_le_card_nsmul sizes blkSize htail
    rw [List.length_cons, List.sum_cons, Nat.succ_mul] at hsum
    intro m hm
    rcases List.mem_cons.mp hm with rfl | hm
    · omega
    · exact eq_of_sum_eq sizes htail (by omega) m hm

theorem flatMap_eq_take {buf : List Byte} {blkSize : Nat} : (parts : List Frag) → (start : Nat) →
    (∀ i f, parts[i]? = some f → f.data.length = blkSize ∧
      (buf.drop ((start + i) * blkSize)).take f.data.length = f.data) →
    parts.flatMap Frag.data = (buf.drop (start * blkSize)).take (parts.length * blkSize)
  | [], _, _ => by simp
  | f :: parts, start, h => by
    have hf := h 0 f rfl
    have hrest := flatMap_eq_take parts (start + 1) (fun i g hg => by
      rw [Nat.add_assoc, Nat.add_comm 1 i]
      exact h (i + 1) g hg)
    rw [Nat.add_zero, hf.1] at hf
    have hlen : (f :: parts).length * blkSize = blkSize + parts.length * blkSize := by
      rw [List.length_cons, Nat.succ_mul, Nat.add_comm]
    rw [List.flatMap_cons, hrest, hlen, List.take_add, List.drop_drop, hf.2, Nat.succ_mul]

theorem Inv.sorted (hinv : Inv hlp window parts) (hseq : hlp.sequenceSize ≠ 0)
    (hcnt : hlp.lastSeqNo - hlp.firstSeqNo + 1 ≤ parts.length) :
    ∃ sorted : List Frag, sorted.Perm parts ∧
      sorted.map (fun f => f.seqNo - hlp.firstSeqNo) =
        List.range (hlp.lastSeqNo - hlp.firstSeqNo + 1) := by
  have hle := (hinv.last hseq).1
  apply exists_perm_map _ parts rfl
  have hnodup : (parts.map fun f => f.seqNo - hlp.firstSeqNo).Nodup := by
    have hinj := List.inj_on_of_nodup_map hinv.nodup
    refine (List.Nodup.of_map _ hinv.nodup).map_on ?_
    intro f hf g hg heq
    have hf' := hinv.ge f hf
    have hg' := hinv.ge g hg
    exact hinj hf hg (by omega)
  have hsub : (parts.map fun f => f.seqNo - hlp.firstSeqNo) ⊆
      List.range (hlp.lastSeqNo - hlp.firstSeqNo + 1) := by
    intro i hi
    rcases List.mem_map.mp hi with ⟨f, hf, rfl⟩
    have hf' := hle f hf
    rw [List.mem_range]
    omega
  apply (hnodup.subperm hsub).perm_of_length_le
  rw [List.length_range, List.length_map]
  exact hcnt

theorem verdict_ok (h : verdict hlp = .ok) : hlp.sequenceSize ≠ 0 ∧
    (seqCalcDiff hlp.firstSeqNo hlp.lastSeqNo + 1) % 2 ^ 64 ≤ hlp.blkCnt ∧
    hlp.sequenceSize = hlp.recvCnt := by
  unfold verdict at h
  split at h
  case isTrue => exact absurd h nofun
  case isFalse hmore =>
    split at h
    case isTrue => exact absurd h nofun
    case isFalse hbad =>
      rw [not_or] at hmore
      exact ⟨hmore.1, Nat.le_of_not_lt hmore.2, not_not.mp hbad⟩

theorem getElem?_of_map_range {α : Type} {key : α → Nat} {l : List α} {m i : Nat} {a : α}
    (h : l.map key = List.range m) (ha : l[i]? = some a) : key a = i ∧ i < m := by
  have hlen : l.length = m := by
    rw [← List.length_map key, h, List.length_range]
  have hlt : i < m := hlen ▸ (List.getElem?_eq_some_iff.mp ha).1
  have hkey : (l.map key)[i]? = some (key a) := by
    rw [List.getElem?_map, ha]
    rfl
  rw [h, List.getElem?_range hlt, Option.some.injEq] at hkey
  exact ⟨hkey.symm, hlt⟩

/-- When the counters agree, the blocks fill the buffer up to the size of the message. -/
theorem Inv.message (hinv : Inv hlp window parts) (hok : verdict hlp = .ok) :
    ∃ sorted : List Frag,
      (∀ i f, sorted[i]? = some f → f ∈ parts ∧ f.seqNo - hlp.firstSeqNo = i) ∧
      (∃ last, sorted.getLast? = some last ∧ last.isLast = true ∧ last.seqNo = hlp.lastSeqNo) ∧
      hlp.sequenceSize = (sorted.flatMap Frag.data).length ∧
      hlp.buf.take hlp.sequenceSize = sorted.flatMap Frag.data := by
  rcases verdict_ok hok with ⟨hseq, hcnt, hrecv⟩
  rcases hinv.last hseq with ⟨hle, l, hl, hlast, hlno, hsize⟩
  rcases hinv.bits with ⟨bitmap, hbitmap, hlen, hrange, -⟩
  have hlge := hinv.ge l hl
  have hlrange := hrange l hl
  -- the last index is below the size of the bitmap, so nothing wraps
  have henough : hlp.lastSeqNo - hlp.firstSeqNo + 1 ≤ parts.length := by
    rw [seqCalcDiff_of_le (by omega), Nat.mod_eq_of_lt (by omega), hinv.blkCnt] at hcnt
    exact hcnt.trans (Nat.mod_le _ _)
  rcases hinv.sorted hseq henough with ⟨sorted, hperm, hkeys⟩
  have hindex : ∀ i f, sorted[i]? = some f → f ∈ parts ∧ f.seqNo - hlp.firstSeqNo = i := fun i f hf =>
    ⟨hperm.subset (List.mem_of_getElem? hf), (getElem?_of_map_range hkeys hf).1⟩
  have hlength : sorted.length = l.seqNo - hlp.firstSeqNo + 1 := by
    rw [← List.length_map fun f : Frag => f.seqNo - hlp.firstSeqNo, hkeys, List.length_range, hlno]
  -- the last fragment closes the message
  rcases List.eq_nil_or_concat sorted with hnil | ⟨front, l', hfront⟩
  · rw [hnil] at hlength
    exact absurd hlength (by simp)
  rw [List.concat_eq_append] at hfront
  subst hfront
  rw [List.length_append, List.length_singleton] at hlength
  have hl' : l' = l := by
    have hget := hindex front.length l' (by simp)
    have hge := hinv.ge l' hget.1
    exact List.inj_on_of_nodup_map hinv.nodup hget.1 hl (by omega)
  subst hl'
  have hfrontget : ∀ i f, front[i]? = some f → f ∈ parts ∧ f.seqNo - hlp.firstSeqNo = i ∧
      i < front.length := by
    intro i f hf
    have hlt := (List.getElem?_eq_some_iff.mp hf).1
    have hget := hindex i f (by rw [List.getElem?_append_left hlt, hf])
    exact ⟨hget.1, hget.2, hlt⟩
  have hsmall : ∀ n ∈ front.map (fun f => f.data.length), n ≤ hlp.blkSize := by
    intro n hn
    rcases List.mem_map.mp hn with ⟨f, hf, rfl⟩
    rcases List.getElem?_of_mem hf with ⟨i, hi⟩
    rcases hfrontget i f hi with ⟨hmem, hidx, hlt⟩
    rcases hinv.small f hmem with h | ⟨-, h⟩
    · exact h
    · omega
  have hsum : (front.map fun f => f.data.length).sum + l'.data.length =
      (parts.map fun f => f.data.length).sum := by
    rw [← (hperm.map fun f => f.data.length).sum_eq, List.map_append, List.sum_append]
    rfl
  have hmax : (front.map fun f => f.data.length).sum ≤
      (front.map fun f => f.data.length).length * hlp.blkSize :=
    List.sum_le_card_nsmul _ hlp.blkSize hsmall
  rw [List.length_map] at hmax
  have hfits := (hinv.stored l' hl).1
  have hbuf := hinv.size
  have hindexl : l'.seqNo - hlp.firstSeqNo = front.length := by omega
  rw [hindexl] at hsize hfits
  rw [hinv.recvCnt, ← hsum, Nat.mod_eq_of_lt (by omega)] at hrecv
  have hblock := eq_of_sum_eq _ hsmall (by rw [List.length_map]; omega)
  have hflat : front.flatMap Frag.data = (hlp.buf.drop (0 * hlp.blkSize)).take
      (front.length * hlp.blkSize) := by
    apply flatMap_eq_take
    intro i f hf
    rcases hfrontget i f hf with ⟨hmem, hidx, -⟩
    rw [Nat.zero_add, ← hidx]
    exact ⟨hblock _ (List.mem_map.mpr ⟨f, List.mem_of_getElem? hf, rfl⟩), (hinv.stored f hmem).2⟩
  have hdata : (front ++ [l']).flatMap Frag.data = hlp.buf.take hlp.sequenceSize := by
    have hlstored := (hinv.stored l' hl).2
    rw [hindexl] at hlstored
    rw [List.flatMap_append, hflat, Nat.zero_mul, List.drop_zero, List.flatMap_singleton, hsize,
      List.take_add, hlstored]
  refine ⟨front ++ [l'], hindex, ⟨l', by simp, hlast, hlno⟩, ?_, hdata.symm⟩
  rw [hdata, List.length_take]
  omega

/-! ## Every run -/

theorem inv_init {buf bitmap : List Byte} (curSeqNo : Nat) (hbuf : buf.length < 2 ^ 64)
    (hbitmap : bitmap.length < 2 ^ 64) : Inv (init buf (some bitmap) curSeqNo) [] [] := by
  refine ⟨rfl, nofun, nofun, List.nodup_nil, ?_, hbuf, nofun, nofun, rfl, rfl,
    fun h => absurd rfl h⟩
  refine ⟨List.replicate bitmap.length 0, rfl, ?_, nofun, ?_⟩
  · rw [List.length_replicate]
    exact hbitmap
  · intro j _
    rw [getBit_replicate]
    exact ⟨nofun, nofun⟩

theorem Reach.inv {start : ReassHlp} {frags : List Frag} (hstart : Inv start [] [])
    (hreach : Reach start frags hlp) : ∃ parts, Inv hlp (since frags) parts := by
  induction hreach with
  | nil => exact ⟨[], hstart⟩
  | snoc frag ret _ horder hcall ih =>
    rcases ih with ⟨parts, hinv⟩
    rcases hinv.step horder hcall with ⟨parts', hinv', -⟩
    rw [since_append]
    exact ⟨parts', hinv'⟩

end Reass
