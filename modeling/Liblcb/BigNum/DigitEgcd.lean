import Liblcb.BigNum.Gcd
import Mathlib.Data.BitVec
import Mathlib.Tactic.LinearCombination

/-!
# Euclid's algorithm with cofactors on digits

`bn_digit_egcd` of `math/big_num.h`.  The cofactors are digits, so that the identity they satisfy is
one in the ring of the digits.
-/

namespace BigNum

/-- The locals of `bn_digit_egcd`. -/
structure DigitEgcd where
  a : Digit
  b : Digit
  x : Digit
  xPrev : Digit
  y : Digit
  yPrev : Digit

namespace DigitEgcd

/-- The locals as they are initialised. -/
def start (a b : Digit) : DigitEgcd where
  a := a
  b := b
  x := 0
  xPrev := 1
  y := 1
  yPrev := 0

/-- The body of the loop.  `ax` and `bY` say that the pointers are not `NULL`. -/
def turn (ax bY : Bool) (s : DigitEgcd) : DigitEgcd :=
  let q := s.a / s.b
  { a := s.b
    b := s.a % s.b
    x := if ax then s.xPrev - q * s.x else s.x
    xPrev := if ax then s.x else s.xPrev
    y := if bY then s.yPrev - q * s.y else s.y
    yPrev := if bY then s.y else s.yPrev }

def loop (ax bY : Bool) : Nat → DigitEgcd → Except Err DigitEgcd
  | 0, _ => .error .noReturn
  | fuel + 1, s => if 0 = s.b then .ok s else loop ax bY fuel (s.turn ax bY)

/-- Up to the label `ok_exit`. -/
def main (ax bY : Bool) (a b : Digit) : Except Err DigitEgcd :=
  let s := start a b
  if 0 = a then
    .ok { s with
      a := b
      xPrev := s.yPrev
      yPrev := s.xPrev }
  else if 0 = b then .ok s
  else if a = b then .ok { s with yPrev := 1 }
  else if a < b then
    loop ax bY loopFuel {
      a := b
      b := a
      x := s.y
      xPrev := s.yPrev
      y := s.x
      yPrev := s.xPrev }
  else loop ax bY loopFuel s

end DigitEgcd

/-- What `bn_digit_egcd` returns and stores. -/
structure EgcdRet where
  gcd : Digit
  ax : Option Digit
  bY : Option Digit
  deriving DecidableEq

def bnDigitEgcd (ax bY : Bool) (a b : Digit) : Except Err EgcdRet :=
  if ¬ax ∧ ¬bY then do
    let g ← bnDigitGcd a b
    .ok ⟨g, none, none⟩
  else do
    let s ← DigitEgcd.main ax bY a b
    .ok ⟨s.a, if ax then some s.xPrev else none, if bY then some s.yPrev else none⟩

/-! ## The loop -/

section Loop

variable {a b : Digit} {ax bY : Bool} {s : DigitEgcd}

theorem umod_eq_sub (a b : Digit) : a % b = a - a / b * b := by
  apply BitVec.eq_of_toNat_eq
  have hdiv := Nat.div_add_mod' a.toNat b.toNat
  have hmul : (a / b * b).toNat = a.toNat / b.toNat * b.toNat := by
    rw [BitVec.toNat_mul, BitVec.toNat_udiv]
    apply Nat.mod_eq_of_lt
    have := a.isLt
    omega
  have := a.isLt
  rw [BitVec.toNat_umod, BitVec.toNat_sub, hmul]
  omega

namespace DigitEgcd

/-- The greatest common divisor is the one of `a` and `b`, and, when both cofactors are asked for, the
pairs of cofactors lead to the two remainders. -/
structure Inv (ax bY : Bool) (a b : Digit) (s : DigitEgcd) : Prop where
  gcd : Nat.gcd s.a.toNat s.b.toNat = Nat.gcd a.toNat b.toNat
  prev : ax = true → bY = true → a * s.xPrev + b * s.yPrev = s.a
  cur : ax = true → bY = true → a * s.x + b * s.y = s.b

theorem inv_start (a b : Digit) : Inv ax bY a b (start a b) := by
  constructor
  · rfl
  · intro _ _
    show a * 1 + b * 0 = a
    ring
  · intro _ _
    show a * 0 + b * 1 = b
    ring

theorem inv_swapped (a b : Digit) : Inv ax bY a b ⟨b, a, 1, 0, 0, 1⟩ := by
  constructor
  · exact Nat.gcd_comm _ _
  · intro _ _
    show a * 0 + b * 1 = b
    ring
  · intro _ _
    show a * 1 + b * 0 = a
    ring

theorem Inv.turn (h : Inv ax bY a b s) : Inv ax bY a b (s.turn ax bY) := by
  constructor
  · show Nat.gcd s.b.toNat (s.a % s.b).toNat = _
    rw [BitVec.toNat_umod, Nat.gcd_comm, ← Nat.gcd_rec, Nat.gcd_comm]
    exact h.gcd
  · rintro rfl rfl
    exact h.cur rfl rfl
  · rintro rfl rfl
    show a * (s.xPrev - s.a / s.b * s.x) + b * (s.yPrev - s.a / s.b * s.y) = s.a % s.b
    have hprev := h.prev rfl rfl
    have hcur := h.cur rfl rfl
    rw [umod_eq_sub]
    linear_combination hprev - s.a / s.b * hcur

theorem Inv.loop (fuel : Nat) (h : Inv ax bY a b s) (hfuel : s.b.toNat < fuel) :
    ∃ s', DigitEgcd.loop ax bY fuel s = .ok s' ∧ Inv ax bY a b s' ∧ s'.b = 0 := by
  induction fuel generalizing s with
  | zero => omega
  | succ fuel ih =>
    rw [DigitEgcd.loop]
    by_cases hb : 0 = s.b
    · exact ⟨s, if_pos hb, h, hb.symm⟩
    · have hb0 : s.b.toNat ≠ 0 := fun h0 => hb (BitVec.eq_of_toNat_eq h0.symm)
      have hmod : (s.turn ax bY).b.toNat = s.a.toNat % s.b.toNat := BitVec.toNat_umod
      have hlt := Nat.mod_lt s.a.toNat (Nat.pos_of_ne_zero hb0)
      rw [if_neg hb]
      exact ih h.turn (by omega)

/-- What is asked for at `ok_exit`, apart from the identity for two equal digits. -/
theorem main_spec (ax bY : Bool) (a b : Digit) :
    ∃ s, main ax bY a b = .ok s ∧ s.a.toNat = Nat.gcd a.toNat b.toNat ∧
      (ax = true → bY = true → 0 ≠ a → 0 ≠ b → a = b → a * s.xPrev + b * s.yPrev = s.a + s.a) ∧
      (ax = true → bY = true → 0 = a ∨ 0 = b ∨ a ≠ b → a * s.xPrev + b * s.yPrev = s.a) := by
  have hloop : ∀ {s}, Inv ax bY a b s → a ≠ b →
      ∃ s', DigitEgcd.loop ax bY loopFuel s = .ok s' ∧ s'.a.toNat = Nat.gcd a.toNat b.toNat ∧
        (ax = true → bY = true → 0 ≠ a → 0 ≠ b → a = b →
          a * s'.xPrev + b * s'.yPrev = s'.a + s'.a) ∧
        (ax = true → bY = true → 0 = a ∨ 0 = b ∨ a ≠ b → a * s'.xPrev + b * s'.yPrev = s'.a) := by
    intro s hinv hab
    obtain ⟨s', hrun, hinv', hend⟩ := hinv.loop loopFuel (toNat_lt_loopFuel s.b)
    refine ⟨s', hrun, ?_, fun _ _ _ _ heq => absurd heq hab, fun hax hby _ => hinv'.prev hax hby⟩
    have hgcd := hinv'.gcd
    rw [hend] at hgcd
    exact (Nat.gcd_zero_right _).symm.trans hgcd
  unfold main
  by_cases ha : 0 = a
  · rw [if_pos ha]
    refine ⟨_, rfl, ?_, fun _ _ hne => absurd ha hne, fun _ _ _ => ?_⟩
    · rw [← ha]
      exact (Nat.gcd_zero_left _).symm
    · show a * 0 + b * 1 = b
      ring
  rw [if_neg ha]
  by_cases hb : 0 = b
  · rw [if_pos hb]
    refine ⟨_, rfl, ?_, fun _ _ _ hne => absurd hb hne, fun _ _ _ => ?_⟩
    · rw [← hb]
      exact (Nat.gcd_zero_right _).symm
    · show a * 1 + b * 0 = a
      ring
  rw [if_neg hb]
  by_cases hab : a = b
  · rw [if_pos hab]
    refine ⟨_, rfl, ?_, fun _ _ _ _ _ => ?_, fun _ _ h => ?_⟩
    · rw [← hab]
      exact (Nat.gcd_self _).symm
    · show a * 1 + b * 1 = a + a
      rw [hab]
      ring
    · rcases h with h | h | h
      · exact absurd h ha
      · exact absurd h hb
      · exact absurd hab h
  rw [if_neg hab]
  by_cases hlt : a < b
  · rw [if_pos hlt]
    exact hloop (inv_swapped a b) hab
  · rw [if_neg hlt]
    exact hloop (inv_start a b) hab

end DigitEgcd

end Loop

/-- What the comment on `bn_digit_egcd` says of a call: it returns the greatest common divisor, and the
cofactors it stores lead to it. -/
def EgcdRight (ax bY : Bool) (a b : Digit) : Prop :=
  ∃ ret, bnDigitEgcd ax bY a b = .ok ret ∧ ret.gcd.toNat = Nat.gcd a.toNat b.toNat ∧
    ∀ x y, ret.ax = some x → ret.bY = some y → a * x + b * y = ret.gcd

/-- The identity fails for equal digits that are not zero, where both cofactors are set to 1, and holds
everywhere else. -/
theorem bnDigitEgcd_iff {ax bY : Bool} {a b : Digit} (hab : a ≠ 0 ∨ b ≠ 0)
    (hptr : ax = true ∨ bY = true) :
    EgcdRight ax bY a b ↔ a ≠ b ∨ ax = false ∨ bY = false := by
  obtain ⟨s, hrun, hgcd, hdouble, hident⟩ := DigitEgcd.main_spec ax bY a b
  have hnull : ¬(¬ax = true ∧ ¬bY = true) := by
    rintro ⟨hax, hby⟩
    rcases hptr with h | h
    · exact hax h
    · exact hby h
  have hret : bnDigitEgcd ax bY a b =
      .ok ⟨s.a, if ax then some s.xPrev else none, if bY then some s.yPrev else none⟩ := by
    rw [bnDigitEgcd, if_neg hnull, hrun]
    rfl
  unfold EgcdRight
  rw [hret]
  constructor
  · rintro ⟨ret, hok, -, hid⟩
    rw [← Except.ok.inj hok] at hid
    by_contra hnot
    rw [not_or, not_or, not_not, Bool.not_eq_false, Bool.not_eq_false] at hnot
    obtain ⟨heq, hax, hby⟩ := hnot
    rw [heq, or_self] at hab
    have hb : 0 ≠ b := hab.symm
    have ha : 0 ≠ a := heq.symm ▸ hb
    have hsum := hid s.xPrev s.yPrev (by rw [hax]; rfl) (by rw [hby]; rfl)
    have hzero : s.a = 0 := by
      have htwice := (hdouble hax hby ha hb heq).symm.trans hsum
      exact left_eq_add.mp htwice.symm
    rw [hzero, heq, Nat.gcd_self] at hgcd
    exact hb (BitVec.eq_of_toNat_eq hgcd)
  · intro hcond
    refine ⟨_, rfl, hgcd, fun x y hx hy => ?_⟩
    have hax : ax = true := by
      by_contra h
      rw [if_neg h] at hx
      cases hx
    have hby : bY = true := by
      by_contra h
      rw [if_neg h] at hy
      cases hy
    rw [if_pos hax, Option.some.injEq] at hx
    rw [if_pos hby, Option.some.injEq] at hy
    rw [← hx, ← hy]
    apply hident hax hby
    rcases hcond with h | h | h
    · exact .inr (.inr h)
    · rw [hax] at h
      cases h
    · rw [hby] at h
      cases h

/-- The pair of the self test. -/
theorem bnDigitEgcd_self_test : EgcdRight true true 120 23 :=
  (bnDigitEgcd_iff (.inl (by decide)) (.inl rfl)).mpr (.inl (by decide))

theorem not_egcdRight_equal : ¬EgcdRight true true 6 6 := by
  rintro ⟨ret, hok, -, hid⟩
  have hret : bnDigitEgcd true true 6 6 = .ok ⟨6, some 1, some 1⟩ := by rfl
  rw [hret] at hok
  rw [← Except.ok.inj hok] at hid
  exact absurd (hid 1 1 rfl rfl) (by decide)

end BigNum
