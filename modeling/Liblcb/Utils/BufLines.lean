import Liblcb.Utils.Ini

/-!
# The lines of a buffer

`buf_get_next_line`, called until there is no line left.  Where the next line starts is found again
from the end of the last one, by skipping the CR and the LF that may stand there.
-/

namespace Ini

open Mem

variable {buf : List Byte}

/-- The calls from the line `prev` on, each with the line of the call before it. -/
def nextLines (buf : List Byte) : Nat → Option (Nat × Nat) → Option (List (Nat × Nat))
  | 0, _ => none
  | fuel + 1, prev =>
    match bufGetNextLine buf prev with
    | none => some []
    | some line => (nextLines buf fuel (some line)).map (line :: ·)

/-- The bytes of a line. -/
def lineBytes (buf : List Byte) (line : Nat × Nat) : List Byte := (buf.drop line.1).take line.2

/-- A piece without a CR at its end. -/
def stripCr (piece : List Byte) : List Byte :=
  if piece.getLast? = some cr then piece.dropLast else piece

/-- The lines of a text: its pieces between the LFs, and the piece after the last LF unless it is
empty. -/
def textLines (text : List Byte) : List (List Byte) :=
  (text.splitOn lf).dropLast.map stripCr ++ [(text.splitOn lf).getLastD []].filter (· ≠ [])

/-! ## The lines of a text -/

theorem textLines_nil : textLines [] = [] := rfl

theorem textLines_last {text : List Byte} (hclean : lf ∉ text) (hne : text ≠ []) :
    textLines text = [text] := by
  unfold textLines
  rw [List.splitOn_eq_singleton hclean]
  simp [hne]

theorem textLines_append {piece : List Byte} (hclean : lf ∉ piece) (rest : List Byte) :
    textLines (piece ++ lf :: rest) = stripCr piece :: textLines rest := by
  unfold textLines
  rw [List.splitOn_append_cons_self, List.splitOn_eq_singleton hclean, List.singleton_append,
    List.dropLast_cons_of_ne_nil (List.splitOn_ne_nil lf rest), List.map_cons, List.cons_append]
  cases hsplit : rest.splitOn lf with
  | nil => exact absurd hsplit (List.splitOn_ne_nil lf rest)
  | cons first others => simp [List.getLastD]

/-! ## One line -/

theorem stripCr_cases (piece : List Byte) :
    (piece = stripCr piece ++ [cr] ∧ piece.getLast? = some cr) ∨
      (stripCr piece = piece ∧ piece.getLast? ≠ some cr) := by
  unfold stripCr
  by_cases hcr : piece.getLast? = some cr
  · rw [if_pos hcr]
    exact .inl ⟨(List.dropLast_append_getLast? cr hcr).symm, hcr⟩
  · rw [if_neg hcr]
    exact .inr ⟨rfl, hcr⟩

section Found

variable {pre piece rest : List Byte} (hbuf : buf = pre ++ (piece ++ lf :: rest))
include hbuf

theorem lineEnd_found (hclean : lf ∉ piece) :
    lineEnd buf pre.length = pre.length + (stripCr piece).length := by
  have hchr : memChrOff pre.length buf lf = some (pre.length + piece.length) := by
    rw [hbuf]
    exact memChrOff_append rfl hclean
  unfold lineEnd
  rw [hchr]
  dsimp only
  rcases stripCr_cases piece with ⟨hpiece, hcr⟩ | ⟨hstrip, hcr⟩
  · have hlen : piece.length = (stripCr piece).length + 1 := by
      rw [← List.length_singleton (a := cr), ← List.length_append, ← hpiece]
    have hget : buf[pre.length + piece.length - 1]? = some cr := by
      rw [List.getLast?_eq_getElem?] at hcr
      rw [hbuf, List.getElem?_append_right (by omega), List.getElem?_append_left (by omega), ← hcr]
      congr 1
      omega
    rw [if_pos ⟨by omega, hget⟩]
    omega
  · have hno : ¬ (pre.length < pre.length + piece.length ∧
        buf[pre.length + piece.length - 1]? = some cr) := by
      rintro ⟨hlt, hget⟩
      apply hcr
      rw [hbuf, List.getElem?_append_right (by omega), List.getElem?_append_left (by omega)] at hget
      rw [List.getLast?_eq_getElem?, ← hget]
      congr 1
      omega
    rw [if_neg hno, hstrip]

theorem nextPtr_found :
    nextPtr buf (some (pre.length, (stripCr piece).length)) = (pre ++ (piece ++ [lf])).length := by
  have hlf : buf[pre.length + piece.length]? = some lf := by
    rw [hbuf, List.getElem?_append_right (by omega), Nat.add_sub_cancel_left,
      List.getElem?_append_right (Nat.le_refl _), Nat.sub_self]
    rfl
  have hend : (pre ++ (piece ++ [lf])).length = pre.length + piece.length + 1 := by
    rw [List.length_append, List.length_append, List.length_singleton, Nat.add_assoc]
  unfold nextPtr
  dsimp only
  rw [hend]
  rcases stripCr_cases piece with ⟨hpiece, hcr⟩ | ⟨hstrip, hcr⟩
  · have hlen : piece.length = (stripCr piece).length + 1 := by
      rw [← List.length_singleton (a := cr), ← List.length_append, ← hpiece]
    have hget : buf[pre.length + (stripCr piece).length]? = some cr := by
      rw [List.getLast?_eq_getElem?] at hcr
      rw [hbuf, List.getElem?_append_right (by omega), List.getElem?_append_left (by omega), ← hcr]
      congr 1
      omega
    rw [if_pos hget, Nat.add_assoc pre.length, ← hlen, if_pos hlf]
  · have hne : ¬ some lf = some cr := by decide
    rw [hstrip, hlf, if_neg hne, if_pos hlf]

theorem lineBytes_found : lineBytes buf (pre.length, (stripCr piece).length) = stripCr piece := by
  unfold lineBytes
  dsimp only
  rw [hbuf, List.drop_left]
  rcases stripCr_cases piece with ⟨hpiece, -⟩ | ⟨hstrip, -⟩
  · conv_lhs =>
      rw [hpiece, List.append_assoc]
    rw [← hpiece, List.take_left]
  · rw [hstrip, List.take_left]

end Found

/-! ## All lines -/

theorem nextLines_step (hbuf : buf ≠ []) (fuel : Nat) (prev : Option (Nat × Nat)) :
    nextLines buf (fuel + 1) prev =
      if buf.length = nextPtr buf prev then some []
      else
        (nextLines buf fuel
          (some (nextPtr buf prev, lineEnd buf (nextPtr buf prev) - nextPtr buf prev))).map
          ((nextPtr buf prev, lineEnd buf (nextPtr buf prev) - nextPtr buf prev) :: ·) := by
  rw [nextLines, bufGetNextLine_eq buf prev hbuf]
  by_cases hend : buf.length = nextPtr buf prev
  · rw [if_pos hend, if_pos hend]
  · rw [if_neg hend, if_neg hend]

/-- The calls that are left report the lines of the text that is left. -/
theorem nextLines_from : ∀ (fuel : Nat) (pre rest : List Byte) (prev : Option (Nat × Nat)),
    pre ++ rest ≠ [] → nextPtr (pre ++ rest) prev = pre.length → rest.length < fuel →
    ∃ lines, nextLines (pre ++ rest) fuel prev = some lines ∧
      lines.map (lineBytes (pre ++ rest)) = textLines rest ∧
      ∀ line ∈ lines, line.1 + line.2 ≤ (pre ++ rest).length := by
  intro fuel
  induction fuel with
  | zero => exact fun pre rest prev _ _ hfuel => absurd hfuel (Nat.not_lt_zero _)
  | succ fuel ih =>
    intro pre rest prev hbuf hptr hfuel
    have hlength : (pre ++ rest).length = pre.length + rest.length := List.length_append
    rw [nextLines_step hbuf, hptr]
    by_cases hrest : rest = []
    · rw [hrest, List.append_nil, if_pos rfl]
      exact ⟨[], rfl, rfl, fun line hline => by cases hline⟩
    have hpos : 0 < rest.length := List.length_pos_iff.mpr hrest
    rw [if_neg (by omega)]
    by_cases hlf : lf ∈ rest
    · rcases List.eq_append_cons_of_mem hlf with ⟨piece, tail, hsplit, hclean⟩
      have htext : pre ++ rest = pre ++ (piece ++ lf :: tail) := by rw [hsplit]
      have htail : pre ++ (piece ++ [lf]) ++ tail = pre ++ rest := by
        rw [htext]
        simp
      have hlen : rest.length = piece.length + (tail.length + 1) := by
        rw [hsplit, List.length_append, List.length_cons]
      have hshort : (stripCr piece).length ≤ piece.length := by
        unfold stripCr
        split
        · rw [List.length_dropLast]
          exact Nat.sub_le _ _
        · exact Nat.le_refl _
      rw [lineEnd_found htext hclean, Nat.add_sub_cancel_left]
      rcases ih (pre ++ (piece ++ [lf])) tail (some (pre.length, (stripCr piece).length))
        (by rw [htail]; exact hbuf) (by rw [htail]; exact nextPtr_found htext) (by omega) with
        ⟨lines, hrun, hlines, hinside⟩
      rw [htail] at hrun hlines hinside
      refine ⟨(pre.length, (stripCr piece).length) :: lines, by rw [hrun]; rfl, ?_, ?_⟩
      · rw [List.map_cons, hlines, lineBytes_found htext, hsplit, textLines_append hclean]
      · intro line hline
        rcases List.mem_cons.mp hline with rfl | hline
        · show pre.length + (stripCr piece).length ≤ _
          omega
        · exact hinside line hline
    · -- the piece after the last LF goes to the end of the buffer
      have hend : lineEnd (pre ++ rest) pre.length = (pre ++ rest).length := by
        unfold lineEnd
        rw [memChrOff_of_absent]
        intro k hk
        rw [List.getElem?_append_right hk]
        exact fun hget => hlf (List.mem_of_getElem? hget)
      have hsize : (pre ++ rest).length - pre.length = rest.length := by omega
      have hnext : nextPtr (pre ++ rest) (some (pre.length, rest.length)) =
          (pre ++ rest).length := by
        have hnone : (pre ++ rest)[(pre ++ rest).length]? = none :=
          List.getElem?_eq_none (Nat.le_refl _)
        have hno : ∀ b : Byte, ¬ (none : Option Byte) = some b := fun b h => by cases h
        unfold nextPtr
        dsimp only
        rw [← hlength, hnone, if_neg (hno cr), hnone, if_neg (hno lf)]
      rw [hend, hsize]
      rcases ih (pre ++ rest) [] (some (pre.length, rest.length))
        (by rw [List.append_nil]; exact hbuf) (by rw [List.append_nil]; exact hnext)
        (by rw [List.length_nil]; omega) with ⟨lines, hrun, hlines, hinside⟩
      rw [List.append_nil] at hrun hlines hinside
      refine ⟨(pre.length, rest.length) :: lines, by rw [hrun]; rfl, ?_, ?_⟩
      · rw [List.map_cons, hlines, textLines_nil, textLines_last hlf hrest]
        unfold lineBytes
        dsimp only
        rw [List.drop_left, List.take_length]
      · intro line hline
        rcases List.mem_cons.mp hline with rfl | hline
        · exact Nat.le_of_eq hlength.symm
        · exact hinside line hline

/-- The calls end, and what they report are the lines of the buffer, each of them inside it. -/
theorem bufGetNextLine_lines (buf : List Byte) :
    ∃ lines, nextLines buf (buf.length + 1) none = some lines ∧
      lines.map (lineBytes buf) = textLines buf ∧ ∀ line ∈ lines, line.1 + line.2 ≤ buf.length := by
  by_cases hbuf : buf = []
  · rw [hbuf]
    exact ⟨[], rfl, rfl, fun line hline => by cases hline⟩
  · exact nextLines_from (buf.length + 1) [] buf none hbuf rfl (Nat.lt_succ_self _)

/-- An empty line, a CR inside a line and a text without a LF at its end. -/
example : textLines [lf, chr 'a', cr, cr, lf, cr, lf, chr 'b', cr] =
    [[], [chr 'a', cr], [], [chr 'b', cr]] := by decide

end Ini
