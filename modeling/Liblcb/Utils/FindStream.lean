import Liblcb.Lib.Matching
import Liblcb.Lib.StateErr
import Liblcb.Utils.Mem

/-!
# Searching a stream

`mem_find_stream` of `utils/mem_utils.h` looks for a pattern in a stream that comes in pieces.
Between the calls `state` is the number of bytes at the end of the stream that are the start of the
pattern.  A start that lies in the pieces before is given up for a later one, which the function
looks for in the pattern itself.
-/

namespace FindStream

open Mem Matching StateErr

/-- How a call goes wrong: it reads outside the pattern, or does not come back. -/
inductive Stop
  | undef
  | noReturn
  deriving DecidableEq, Repr

/-- What a call returns; `found` is zero, with `off_end`. -/
inductive Ret
  | found (offEnd : Nat)
  | enoent
  | einval
  deriving DecidableEq, Repr

/-- How many rounds the loop at `cmp_loop` makes before two bytes differ or one side ends. -/
def agree : List Byte → List Byte → Nat
  | b :: buf, w :: what => if b = w then agree buf what + 1 else 0
  | _, _ => 0

/-- The loop over `wptr`, up to `wptrMax`: the new `off`, or nothing for `re_search`. -/
def pastLoop (what : List Byte) (wptrMax : Nat) : Nat → Nat → Except Stop (Option Nat)
  | 0, _ => .error .noReturn
  | fuel + 1, wptr =>
    if wptrMax ≤ wptr then .ok none
    else
      let off := wptrMax - wptr
      if what.length < wptr + off then .error .undef
      else
        match memChrOff wptr (what.take (wptr + off)) (what.headD 0) with
        | none => .ok none
        | some wptr =>
          -- `off` still counts from where `memchr` has started
          if what.length < wptr + off then .error .undef
          else if (what.drop wptr).take off = what.take off then .ok (some off)
          else pastLoop what wptrMax fuel (wptr + 1)

/-- `cmp_loop` and what follows it, with `re_search` where the code goes back to it. -/
def cmpLoop (buf what : List Byte) : Nat → Nat → Nat → Except Stop (Ret × Nat)
  | 0, _, _ => .error .noReturn
  | fuel + 1, ptr, off =>
    let n := agree (buf.drop ptr) (what.drop off)
    let reSearch (ptr : Nat) : Except Stop (Ret × Nat) :=
      match memChrOff ptr buf (what.headD 0) with
      | none => .ok (.enoent, 0)
      | some ptr => cmpLoop buf what fuel (ptr + 1) 1
    if ptr + n < buf.length ∧ off + n < what.length then
      if off + n ≤ ptr + n then reSearch (ptr + n - (off + n - 1))
      else do
        match ← pastLoop what (off + n - (ptr + n)) (off + n - (ptr + n)) 1 with
        | none => reSearch 0
        | some off => cmpLoop buf what fuel 0 off
    else if off + n = what.length then .ok (.found (ptr + n), 0)
    else .ok (.enoent, off + n)

/-- `mem_find_stream`; the result is what it returns and the new `*state`. -/
def memFindStream (buf what : List Byte) (state : Nat) : Except Stop (Ret × Nat) :=
  let fuel := buf.length + what.length + 1
  if buf.length = 0 ∨ what.length = 0 ∨ what.length ≤ state then .ok (.einval, state)
  else if 0 = state then
    match memChrOff 0 buf (what.headD 0) with
    | none => .ok (.enoent, 0)
    | some ptr => cmpLoop buf what fuel (ptr + 1) 1
  else cmpLoop buf what fuel 0 state

/-- The calls for the pieces of a stream, one after the other; nothing comes after a call that goes
wrong. -/
def feed (what : List Byte) : Nat → List (List Byte) → List (Except Stop Ret)
  | _, [] => []
  | state, buf :: bufs =>
    match memFindStream buf what state with
    | .ok (ret, state) => .ok ret :: feed what state bufs
    | .error e => [.error e]

/-! ## The comparison -/

theorem agree_le (buf what : List Byte) :
    agree buf what ≤ buf.length ∧ agree buf what ≤ what.length := by
  induction buf generalizing what with
  | nil => simp [agree]
  | cons b buf ih =>
    cases what with
    | nil => simp [agree]
    | cons w what =>
      have := ih what
      rw [agree]
      split
      · simp only [List.length_cons]
        omega
      · simp

theorem get_of_lt_agree (buf what : List Byte) (j : Nat) (hj : j < agree buf what) :
    buf[j]? = what[j]? := by
  induction buf generalizing what j with
  | nil => simp [agree] at hj
  | cons b buf ih =>
    cases what with
    | nil => simp [agree] at hj
    | cons w what =>
      rw [agree] at hj
      split at hj
      next heq =>
        cases j with
        | zero => rw [List.getElem?_cons_zero, List.getElem?_cons_zero, heq]
        | succ j => exact ih what j (by omega)
      next => omega

theorem get_agree_ne {buf what : List Byte} (hb : agree buf what < buf.length)
    (hw : agree buf what < what.length) :
    buf[agree buf what]? ≠ what[agree buf what]? := by
  induction buf generalizing what with
  | nil => simp at hb
  | cons b buf ih =>
    cases what with
    | nil => simp at hw
    | cons w what =>
      rw [agree] at hb hw ⊢
      split
      next heq =>
        rw [if_pos heq] at hb hw
        rw [List.getElem?_cons_succ, List.getElem?_cons_succ]
        exact ih (by simpa using hb) (by simpa using hw)
      next hne =>
        rw [List.getElem?_cons_zero, List.getElem?_cons_zero]
        intro h
        exact hne (Option.some.inj h)

theorem agree_eq {buf what : List Byte} {n : Nat} (hsame : ∀ j < n, buf[j]? = what[j]?)
    (hb : n < buf.length) (hw : n < what.length) (hne : buf[n]? ≠ what[n]?) :
    agree buf what = n := by
  rcases Nat.lt_trichotomy (agree buf what) n with hlt | heq | hgt
  · exact absurd (hsame _ hlt) (get_agree_ne (by omega) (by omega))
  · exact heq
  · exact absurd (get_of_lt_agree buf what n hgt) hne

/-! ## The first byte of the pattern -/

/-- How often the first byte of the pattern stands at its start. -/
def run (what : List Byte) : Nat := (what.takeWhile (· = what.headD 0)).length

theorem takeWhile_get (c : Byte) (l : List Byte) :
    (l.takeWhile (· = c)).length ≤ l.length ∧
      (∀ j < (l.takeWhile (· = c)).length, l[j]? = some c) ∧
      l[(l.takeWhile (· = c)).length]? ≠ some c := by
  induction l with
  | nil => simp
  | cons b l ih =>
    obtain ⟨hle, hget, hne⟩ := ih
    rw [List.takeWhile_cons]
    by_cases hb : b = c
    · rw [if_pos (by rwa [decide_eq_true_eq]), List.length_cons, List.length_cons]
      refine ⟨by omega, ?_, ?_⟩
      · intro j hj
        cases j with
        | zero => rw [List.getElem?_cons_zero, hb]
        | succ j => exact hget j (by omega)
      · rw [List.getElem?_cons_succ]
        exact hne
    · rw [if_neg (by rwa [decide_eq_true_eq]), List.length_nil]
      refine ⟨Nat.zero_le _, fun j hj => absurd hj (Nat.not_lt_zero j), ?_⟩
      rw [List.getElem?_cons_zero]
      intro h
      exact hb (Option.some.inj h)

section

variable {what : List Byte}

theorem run_le : run what ≤ what.length := (takeWhile_get _ what).1

theorem get_of_lt_run {j : Nat} (hj : j < run what) : what[j]? = some (what.headD 0) :=
  (takeWhile_get _ what).2.1 j hj

theorem get_run_ne : what[run what]? ≠ some (what.headD 0) := (takeWhile_get _ what).2.2

theorem run_pos (h : what ≠ []) : 0 < run what := by
  cases what with
  | nil => exact absurd rfl h
  | cons w what => simp [run]

/-! ## The search in the past -/

theorem headD_eq (h : what ≠ []) : what[0]? = some (what.headD 0) := get_of_lt_run (run_pos h)

theorem pastLoop_here {wptrMax wptr fuel : Nat} (hlt : wptr < wptrMax)
    (hmax : wptrMax ≤ what.length) (hhere : what[wptr]? = some (what.headD 0)) :
    pastLoop what wptrMax (fuel + 1) wptr =
      if ∀ j < wptrMax - wptr, what[wptr + j]? = what[j]? then .ok (some (wptrMax - wptr))
      else pastLoop what wptrMax fuel (wptr + 1) := by
  have hsum : wptr + (wptrMax - wptr) = wptrMax := by omega
  have hchr : memChrOff wptr (what.take wptrMax) (what.headD 0) = some wptr := by
    apply memChrOff_of_first le_rfl
    · rw [List.getElem?_take_of_lt hlt, hhere]
    · intro k hk hlt'
      omega
  rw [pastLoop]
  simp only [hsum, hchr]
  rw [if_neg (by omega), if_neg (by omega), if_neg (by omega)]
  exact if_congr take_drop_eq_iff rfl rfl

theorem pastLoop_jump {wptrMax wptr next fuel : Nat} (hlt : wptr ≤ next) (hnext : next < wptrMax)
    (hmax : wptrMax ≤ what.length) (hbetween : ∀ k, wptr ≤ k → k < next →
      what[k]? ≠ some (what.headD 0)) (hthere : what[next]? = some (what.headD 0)) :
    pastLoop what wptrMax (fuel + 1) wptr =
      if what.length < next + (wptrMax - wptr) then .error .undef
      else if ∀ j < wptrMax - wptr, what[next + j]? = what[j]? then .ok (some (wptrMax - wptr))
      else pastLoop what wptrMax fuel (next + 1) := by
  have hsum : wptr + (wptrMax - wptr) = wptrMax := by omega
  have hchr : memChrOff wptr (what.take wptrMax) (what.headD 0) = some next := by
    apply memChrOff_of_first hlt
    · rw [List.getElem?_take_of_lt hnext, hthere]
    · intro k hk hk'
      rw [List.getElem?_take_of_lt (by omega)]
      exact hbetween k hk hk'
  rw [pastLoop]
  simp only [hsum, hchr]
  rw [if_neg (by omega), if_neg (by omega)]
  exact if_congr Iff.rfl rfl (if_congr take_drop_eq_iff rfl rfl)

theorem pastLoop_none {wptrMax wptr fuel : Nat} (hmax : wptrMax ≤ what.length)
    (hbetween : ∀ k, wptr ≤ k → k < wptrMax → what[k]? ≠ some (what.headD 0)) :
    pastLoop what wptrMax (fuel + 1) wptr = .ok none := by
  rw [pastLoop]
  by_cases hle : wptrMax ≤ wptr
  · rw [if_pos hle]
  have hsum : wptr + (wptrMax - wptr) = wptrMax := by omega
  have hchr : memChrOff wptr (what.take wptrMax) (what.headD 0) = none := by
    apply memChrOff_of_absent
    intro k hk
    by_cases hlt : k < wptrMax
    · rw [List.getElem?_take_of_lt hlt]
      exact hbetween k hk hlt
    · rw [List.getElem?_take_eq_none (by omega)]
      exact nofun
  simp only [hsum, hchr]
  rw [if_neg hle, if_neg (by omega)]

theorem pastLoop_skip {wptrMax fuel i : Nat} (hmax : wptrMax ≤ what.length)
    (hrun : run what < wptrMax) (hi : i < run what) :
    pastLoop what wptrMax (fuel + i) (run what - i) = pastLoop what wptrMax fuel (run what) := by
  induction i with
  | zero => rfl
  | succ i ih =>
    rw [← Nat.add_assoc, pastLoop_here (by omega) hmax (get_of_lt_run (by omega)), if_neg,
      show run what - (i + 1) + 1 = run what - i by omega]
    · exact ih (by omega)
    · intro h
      have hend := h (i + 1) (by omega)
      rw [show run what - (i + 1) + (i + 1) = run what by omega, get_of_lt_run hi] at hend
      exact get_run_ne hend

theorem pastLoop_behind (hne : what ≠ []) {wptrMax : Nat} (hmax : wptrMax ≤ what.length)
    (hrun : run what < wptrMax) :
    pastLoop what wptrMax wptrMax 1 =
      pastLoop what wptrMax (wptrMax - run what + 1) (run what) := by
  have hpos := run_pos hne
  have hskip := @pastLoop_skip what wptrMax (wptrMax - run what + 1) (run what - 1) hmax hrun
    (by omega)
  rwa [show wptrMax - run what + 1 + (run what - 1) = wptrMax by omega,
    show run what - (run what - 1) = 1 by omega] at hskip

/-- The patterns the search in the past works for: behind the run of its first byte and one more
byte the first byte comes again only as the last one, or there are fewer bytes than in the run and
all of them are the first byte. -/
def Restarts (what : List Byte) : Prop :=
  what.headD 0 ∉ (what.drop (run what + 1)).dropLast ∨
    (what.drop (run what + 1)).length < run what ∧
      ∀ b ∈ what.drop (run what + 1), b = what.headD 0

instance (what : List Byte) : Decidable (Restarts what) := by
  unfold Restarts
  infer_instance

theorem restarts_iff (hne : what ≠ []) : Restarts what ↔
    (∀ k, run what < k → k + 1 < what.length → what[k]? ≠ some (what.headD 0)) ∨
      what.length ≤ 2 * run what ∧
        ∀ k, run what < k → k < what.length → what[k]? = some (what.headD 0) := by
  have hpos := run_pos hne
  have hlen : (what.drop (run what + 1)).length = what.length - (run what + 1) := List.length_drop
  apply or_congr
  · rw [List.mem_iff_getElem?, not_exists, List.dropLast_eq_take, hlen]
    constructor
    · intro h k hk hlt hget
      apply h (k - (run what + 1))
      rw [List.getElem?_take_of_lt (by omega), List.getElem?_drop, ← hget]
      congr 1
      omega
    · intro h i hi
      by_cases hlt : i < what.length - (run what + 1) - 1
      · rw [List.getElem?_take_of_lt hlt, List.getElem?_drop] at hi
        exact h _ (by omega) (by omega) hi
      · rw [List.getElem?_take_eq_none (by omega)] at hi
        cases hi
  · apply and_congr
    · omega
    · constructor
      · intro h k hk hlt
        have hget : what[k]? = some what[k] := List.getElem?_eq_getElem hlt
        rw [hget, h what[k]]
        apply List.mem_of_getElem? (i := k - (run what + 1))
        rw [List.getElem?_drop, ← hget]
        congr 1
        omega
      · intro h b hb
        obtain ⟨i, hi⟩ := List.mem_iff_getElem?.mp hb
        rw [List.getElem?_drop] at hi
        obtain ⟨hlt, -⟩ := List.getElem?_eq_some_iff.mp hi
        rw [h _ (by omega) hlt] at hi
        exact (Option.some.inj hi).symm

/-- What the search in the past comes to when the last `wptrMax` bytes before the piece are the
start of the pattern. -/
inductive Past (what : List Byte) (wptrMax : Nat) : Option Nat → Prop
  /-- none of the later places is a start -/
  | none (h : ∀ d, 1 ≤ d → d < wptrMax → ∃ j, d + j < wptrMax ∧ what[d + j]? ≠ what[j]?) :
      Past what wptrMax none
  /-- inside the run the next place is a start -/
  | run (h2 : 2 ≤ wptrMax) (hrun : wptrMax ≤ run what) : Past what wptrMax (some (wptrMax - 1))
  /-- the place behind the run, with a byte more than there is -/
  | tail (hlt : run what + 2 ≤ wptrMax) (hlen : what.length ≤ 2 * run what)
      (hall : ∀ k, run what < k → k < what.length → what[k]? = some (what.headD 0)) :
      Past what wptrMax (some (wptrMax - run what))

theorem pastLoop_run {wptrMax : Nat} (h0 : 0 < wptrMax) (hrun : wptrMax ≤ run what) :
    pastLoop what wptrMax wptrMax 1 = .ok (if wptrMax = 1 then none else some (wptrMax - 1)) := by
  have hmax := hrun.trans run_le
  obtain ⟨fuel, rfl⟩ : ∃ fuel, wptrMax = fuel + 1 := ⟨wptrMax - 1, by omega⟩
  by_cases h1 : fuel = 0
  · subst h1
    exact pastLoop_none hmax (by intro k hk hk'; omega)
  · rw [pastLoop_here (by omega) hmax (get_of_lt_run (by omega)), if_pos, if_neg (by omega)]
    intro j hj
    rw [get_of_lt_run (by omega), get_of_lt_run (by omega)]

theorem clash_in_run {wptrMax d : Nat} (hrun : run what < wptrMax) (h1 : 1 ≤ d)
    (hd : d ≤ run what) : ∃ j, d + j < wptrMax ∧ what[d + j]? ≠ what[j]? := by
  refine ⟨run what - d, by omega, ?_⟩
  rw [show d + (run what - d) = run what by omega, get_of_lt_run (show run what - d < _ by omega)]
  exact get_run_ne

theorem pastLoop_spec (hne : what ≠ []) (hgood : Restarts what) {wptrMax : Nat} (h0 : 0 < wptrMax)
    (hmax : wptrMax < what.length) :
    ∃ o, pastLoop what wptrMax wptrMax 1 = .ok o ∧ Past what wptrMax o := by
  have hpos := run_pos hne
  by_cases hrun : wptrMax ≤ run what
  · rw [pastLoop_run h0 hrun]
    by_cases h1 : wptrMax = 1
    · refine ⟨none, by rw [if_pos h1], .none ?_⟩
      intro d hd hlt
      omega
    · exact ⟨some (wptrMax - 1), by rw [if_neg h1], .run (by omega) hrun⟩
  rw [pastLoop_behind hne (Nat.le_of_lt hmax) (by omega)]
  -- Where the first byte does not come back behind the run, no later start is possible.
  have hnone : (∀ k, run what < k → k < wptrMax → what[k]? ≠ some (what.headD 0)) →
      ∃ o, pastLoop what wptrMax (wptrMax - run what + 1) (run what) = .ok o ∧
        Past what wptrMax o := by
    intro hbehind
    refine ⟨none, pastLoop_none (Nat.le_of_lt hmax) ?_, .none ?_⟩
    · intro k hk hlt
      rcases Nat.eq_or_lt_of_le hk with rfl | hk
      · exact get_run_ne
      · exact hbehind k hk hlt
    · intro d hd hlt
      by_cases hdr : d ≤ run what
      · exact clash_in_run (by omega) hd hdr
      · refine ⟨0, hlt, ?_⟩
        rw [headD_eq hne]
        exact hbehind d (by omega) hlt
  -- Otherwise the pattern is its run, one other byte, and the first byte to the end.
  rcases (restarts_iff hne).mp hgood with hlast | ⟨hlen, hall⟩
  · exact hnone fun k hk hlt => hlast k hk (by omega)
  by_cases hend : wptrMax = run what + 1
  · exact hnone fun k hk hlt => by omega
  · refine ⟨some (wptrMax - run what), ?_, .tail (by omega) hlen hall⟩
    rw [@pastLoop_jump what wptrMax (run what) (run what + 1) _ (by omega) (by omega)
      (Nat.le_of_lt hmax) ?_ (hall _ (by omega) (by omega)), if_neg (by omega), if_pos]
    · intro j hj
      rw [hall _ (by omega) (by omega), get_of_lt_run (by omega)]
    · intro k hk hlt
      rw [show k = run what by omega]
      exact get_run_ne

end

end FindStream
