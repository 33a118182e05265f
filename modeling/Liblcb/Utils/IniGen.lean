import Liblcb.Utils.IniRoundTrip

/-!
# The bound of the generated text

`ini_buf_gen` compares each line with the size of the whole buffer, not with what the lines before
it have left of it.  Whether a buffer that is too small is noticed depends on the lengths of the
single lines.
-/

namespace Ini

open Mem Buffer

variable {lines : List Line} {buf : List Byte}

/-- The code a call returns. -/
def GenRet.error : GenRet → Int
  | .einval => 22
  | .ret error _ _ => error

/-- `*buf_size_ret` after a call, that was `prev` before it. -/
def GenRet.sizeRet (prev : Nat) : GenRet → Nat
  | .einval => prev
  | .ret _ bufSizeRet _ => bufSizeRet

/-- Nothing is written outside the buffer; `0` is returned exactly when the lines fit, and a call
that fails reports no more than the buffer holds. -/
def Bounded (lines : List Line) (buf : List Byte) (prev : Nat) : Prop :=
  ∃ r, iniBufGen lines buf = some r ∧ (r.error = 0 ↔ iniBufCalcSize lines ≤ buf.length) ∧
    (r.error ≠ 0 → r.sizeRet prev ≤ buf.length)

/-- A line does not fit into an empty buffer of this size, and the lines before it fit into it. -/
def Stops (lines : List Line) (bufSize : Nat) : Prop :=
  ∃ pre line post, lines = pre ++ line :: post ∧ iniBufCalcSize pre ≤ bufSize ∧
    bufSize < line.data.length + 2

/-! ## The loop -/

theorem bufGenLoop_step {line : Line} {off : Nat} (hcheck : line.data.length + 2 ≤ buf.length)
    (hoff : off ≤ buf.length) :
    bufGenLoop (line :: lines) buf off =
      if off + (line.data.length + 2) ≤ buf.length then
        bufGenLoop lines (splice buf off (line.data ++ [cr, lf])) (off + (line.data.length + 2))
      else none := by
  rw [bufGenLoop, if_neg (by omega)]
  simp only [Option.bind_eq_bind]
  by_cases hdata : off + line.data.length ≤ buf.length
  · have hlen := length_splice hdata
    rw [putAll_eq hdata, Option.bind_some]
    by_cases hcr : off + line.data.length < buf.length
    · have hline : off + (line.data ++ [cr]).length ≤ buf.length := by
        rw [List.length_append, List.length_singleton]
        omega
      have hpos : off + line.data.length + 1 = off + (line.data ++ [cr]).length := by
        rw [List.length_append, List.length_singleton]
        omega
      rw [put_eq cr (by omega), Option.bind_some, splice_splice hdata]
      by_cases hend : off + (line.data.length + 2) ≤ buf.length
      · rw [hpos, put_eq lf (by rw [length_splice hline]; omega), Option.bind_some,
          splice_splice hline, if_pos hend, List.append_assoc]
        rfl
      · rw [put_none lf (by rw [length_splice hline]; omega), if_neg hend, Option.bind_none]
    · rw [put_none cr (by omega), if_neg (by omega), Option.bind_none]
  · have hne : line.data ≠ [] := by
      intro hnil
      rw [hnil] at hdata
      exact hdata hoff
    rw [putAll_none hne (by omega), if_neg (by omega), Option.bind_none]

theorem length_splice_line {line : Line} {off : Nat}
    (h : off + (line.data.length + 2) ≤ buf.length) :
    (splice buf off (line.data ++ [cr, lf])).length = buf.length := by
  apply length_splice
  rw [List.length_append]
  exact h

theorem bufGenLoop_stops {line : Line} (hline : buf.length < line.data.length + 2)
    (post : List Line) : ∀ (pre : List Line) (off : Nat), off + iniBufCalcSize pre ≤ buf.length →
    ∃ buf', bufGenLoop (pre ++ line :: post) buf off =
      some (.ret (-1) (off + iniBufCalcSize pre) buf') := by
  intro pre
  induction pre generalizing buf with
  | nil =>
    intro off _
    refine ⟨buf, ?_⟩
    rw [List.nil_append, bufGenLoop, if_pos hline]
    rfl
  | cons first pre ih =>
    intro off hfit
    rw [iniBufCalcSize_cons] at hfit ⊢
    have hend : off + (first.data.length + 2) ≤ buf.length := by omega
    have hlen := length_splice_line hend
    rcases @ih (splice buf off (first.data ++ [cr, lf])) (by rw [hlen]; exact hline)
      (off + (first.data.length + 2)) (by rw [hlen]; omega) with ⟨buf', hrun⟩
    refine ⟨buf', ?_⟩
    rw [List.cons_append, bufGenLoop_step (by omega) (by omega), if_pos hend, hrun,
      Nat.add_assoc off]

theorem bufGenLoop_overruns : ∀ (lines : List Line) (off : Nat), off ≤ buf.length →
    buf.length < off + iniBufCalcSize lines →
    (∀ pre line post, lines = pre ++ line :: post → off + iniBufCalcSize pre ≤ buf.length →
      line.data.length + 2 ≤ buf.length) → bufGenLoop lines buf off = none := by
  intro lines
  induction lines generalizing buf with
  | nil =>
    intro off hoff hover _
    exact absurd hover (Nat.not_lt.mpr hoff)
  | cons line lines ih =>
    intro off hoff hover hcheck
    rw [bufGenLoop_step (hcheck [] line lines rfl hoff) hoff]
    by_cases hend : off + (line.data.length + 2) ≤ buf.length
    · have hlen := length_splice_line hend
      rw [if_pos hend]
      rw [iniBufCalcSize_cons] at hover
      apply @ih (splice buf off (line.data ++ [cr, lf]))
      · rw [hlen]
        exact hend
      · rw [hlen]
        omega
      · intro pre next post hsplit hfit
        rw [hlen] at hfit ⊢
        refine hcheck (line :: pre) next post (by rw [hsplit]; rfl) ?_
        rw [iniBufCalcSize_cons]
        omega
    · rw [if_neg hend]

/-! ## The call -/

theorem iniBufGen_cases (lines : List Line) (hbuf : buf.length ≠ 0) :
    (iniBufCalcSize lines ≤ buf.length ∧
      iniBufGen lines buf =
        some (.ret 0 (iniBufCalcSize lines) (splice buf 0 (text lines)))) ∨
    (buf.length < iniBufCalcSize lines ∧ Stops lines buf.length ∧
      ∃ size buf', iniBufGen lines buf = some (.ret (-1) size buf') ∧ size ≤ buf.length) ∨
    (buf.length < iniBufCalcSize lines ∧ ¬ Stops lines buf.length ∧ iniBufGen lines buf = none) := by
  rw [iniBufGen, if_neg hbuf]
  by_cases hfit : iniBufCalcSize lines ≤ buf.length
  · refine .inl ⟨hfit, ?_⟩
    rw [bufGenLoop_eq lines buf 0 (by omega), Nat.zero_add]
  · right
    by_cases hstop : Stops lines buf.length
    · refine .inl ⟨by omega, hstop, ?_⟩
      rcases hstop with ⟨pre, line, post, rfl, hpre, hline⟩
      rcases bufGenLoop_stops hline post pre 0 (by omega) with ⟨buf', hrun⟩
      exact ⟨_, buf', hrun, by omega⟩
    · refine .inr ⟨by omega, hstop, bufGenLoop_overruns lines 0 (Nat.zero_le _) (by omega) ?_⟩
      intro pre line post hsplit hpre
      by_contra hline
      exact hstop ⟨pre, line, post, hsplit, by omega, by omega⟩

/-- The bound is kept exactly when the lines fit, or one of them alone is longer than the buffer and
is reached before the buffer is full.  Without a buffer nothing is generated and nothing reported. -/
theorem iniBufGen_bounded_iff (lines : List Line) (buf : List Byte) (prev : Nat) :
    Bounded lines buf prev ↔
      if buf.length = 0 then lines ≠ [] ∧ prev = 0
      else iniBufCalcSize lines ≤ buf.length ∨ Stops lines buf.length := by
  unfold Bounded
  by_cases hbuf : buf.length = 0
  · rw [if_pos hbuf]
    have hrun : iniBufGen lines buf = some .einval := if_pos hbuf
    have herror : GenRet.einval.error ≠ 0 := by decide
    -- Without a buffer the call is refused, and only the empty text would have fitted.
    have hempty : iniBufCalcSize lines ≤ buf.length ↔ lines = [] := by
      rw [hbuf, Nat.le_zero]
      cases lines with
      | nil => exact iff_of_true rfl rfl
      | cons line lines =>
        rw [iniBufCalcSize_cons]
        exact iff_of_false (by omega) (List.cons_ne_nil line lines)
    constructor
    · rintro ⟨r, hr, hzero, hsize⟩
      rw [hrun, Option.some.injEq] at hr
      rw [← hr] at hzero hsize
      refine ⟨fun hnil => herror (hzero.mpr (hempty.mpr hnil)), ?_⟩
      have hprev : prev ≤ buf.length := hsize herror
      omega
    · rintro ⟨hne, hprev⟩
      refine ⟨_, hrun, iff_of_false herror fun hle => hne (hempty.mp hle), fun _ => ?_⟩
      show prev ≤ buf.length
      omega
  · rw [if_neg hbuf]
    rcases iniBufGen_cases lines hbuf with
      ⟨hfit, hrun⟩ | ⟨hover, hstop, size, buf', hrun, hsize⟩ | ⟨hover, hstop, hrun⟩
    · refine iff_of_true ⟨_, hrun, iff_of_true rfl hfit, fun herror => ?_⟩ (.inl hfit)
      exact absurd rfl herror
    · have herror : (GenRet.ret (-1) size buf').error ≠ 0 := by
        show (-1 : Int) ≠ 0
        decide
      exact iff_of_true ⟨_, hrun, iff_of_false herror (by omega), fun _ => hsize⟩ (.inr hstop)
    · refine iff_of_false ?_ (not_or.mpr ⟨by omega, hstop⟩)
      rintro ⟨r, hr, -⟩
      rw [hrun] at hr
      cases hr

/-- Two lines of one byte each, in a buffer for one and a half of them. -/
theorem iniBufGen_not_bounded :
    ¬ Bounded [parseLine [chr 'a'], parseLine [chr 'b']] (List.replicate 4 0) 0 := by
  rintro ⟨r, hr, -⟩
  have hnone : iniBufGen [parseLine [chr 'a'], parseLine [chr 'b']] (List.replicate 4 0) = none := by
    decide
  rw [hnone] at hr
  cases hr

end Ini
