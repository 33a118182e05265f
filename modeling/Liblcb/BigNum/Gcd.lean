import Liblcb.BigNum.NumMod
import Liblcb.BigNum.Products
import Liblcb.BigNum.ModHom

/-!
# Greatest common divisors

Euclid's algorithm and the binary one, on numbers and on digits.  The two pointers of the number
loops start as `bn` and the local and change places; what they point to is what the loops are
about.
-/

namespace BigNum

open Limbs StateErr BnOps

/-! ## The digit functions -/

/-- The loop of `bn_digit_gcd`. -/
def digitGcdLoop : Nat → Digit → Digit → Except Err Digit
  | 0, _, _ => .error .noReturn
  | fuel + 1, a, b => if b = 0 then .ok a else digitGcdLoop fuel b (a % b)

def bnDigitGcd (a b : Digit) : Except Err Digit :=
  if a = 0 then .ok b
  else if b = 0 ∨ a = b then .ok a
  else if a < b then digitGcdLoop loopFuel b a
  else digitGcdLoop loopFuel a b

/-- The inner loop of `bn_digit_gcd_bin`. -/
def dropZeros : Nat → Digit → Except Err Digit
  | 0, _ => .error .noReturn
  | fuel + 1, b => if 0 = b &&& 1 then dropZeros fuel (b >>> 1) else .ok b

/-- The loop of `bn_digit_gcd_bin`. -/
def digitGcdBinLoop : Nat → Digit → Digit → Except Err Digit
  | 0, _, _ => .error .noReturn
  | fuel + 1, a, b =>
    if b = 0 then .ok a
    else do
      let b ← dropZeros loopFuel b
      if b < a then digitGcdBinLoop fuel b (a - b) else digitGcdBinLoop fuel a (b - a)

def bnDigitGcdBin (a b : Digit) : Except Err Digit :=
  if a = 0 then .ok b
  else if b = 0 ∨ a = b then .ok a
  else do
    let shiftA := bnDigitCtz a
    let shiftB := bnDigitCtz b
    let a ← digitGcdBinLoop loopFuel (a >>> shiftA) (b >>> shiftB)
    .ok (a <<< min shiftA shiftB)

theorem digitGcdLoop_spec (fuel : Nat) (a b : Digit) (hfuel : b.toNat < fuel) :
    ∃ g, digitGcdLoop fuel a b = .ok g ∧ g.toNat = Nat.gcd a.toNat b.toNat := by
  induction fuel generalizing a b with
  | zero => omega
  | succ fuel ih =>
    rw [digitGcdLoop]
    by_cases hb : b = 0
    · refine ⟨a, if_pos hb, ?_⟩
      rw [hb]
      exact (Nat.gcd_zero_right _).symm
    · have hb0 : b.toNat ≠ 0 := fun h => hb (BitVec.eq_of_toNat_eq h)
      have hmod : (a % b).toNat = a.toNat % b.toNat := BitVec.toNat_umod
      have hlt := Nat.mod_lt a.toNat (Nat.pos_of_ne_zero hb0)
      obtain ⟨g, hrun, hg⟩ := ih b (a % b) (by omega)
      refine ⟨g, (if_neg hb).trans hrun, ?_⟩
      rw [hg, hmod, Nat.gcd_comm, ← Nat.gcd_rec, Nat.gcd_comm]

theorem toNat_lt_loopFuel (d : Digit) : d.toNat < loopFuel :=
  ByValue.lt_loopFuel (show 64 ≤ 8192 by decide) d.isLt

theorem bnDigitGcd_spec (a b : Digit) :
    ∃ g, bnDigitGcd a b = .ok g ∧ g.toNat = Nat.gcd a.toNat b.toNat := by
  rw [bnDigitGcd]
  by_cases ha : a = 0
  · refine ⟨b, if_pos ha, ?_⟩
    rw [ha]
    exact (Nat.gcd_zero_left _).symm
  rw [if_neg ha]
  by_cases hb : b = 0 ∨ a = b
  · refine ⟨a, if_pos hb, ?_⟩
    rcases hb with rfl | rfl
    · exact (Nat.gcd_zero_right _).symm
    · exact (Nat.gcd_self _).symm
  rw [if_neg hb]
  by_cases hlt : a < b
  · rw [if_pos hlt, Nat.gcd_comm]
    exact digitGcdLoop_spec loopFuel b a (toNat_lt_loopFuel a)
  · rw [if_neg hlt]
    exact digitGcdLoop_spec loopFuel a b (toNat_lt_loopFuel b)

/-! ### The binary algorithm -/

theorem zero_eq_and_one_iff (d : Digit) : 0 = d &&& 1 ↔ d.toNat % 2 = 0 := by
  rw [eq_comm, ← BitVec.toNat_inj, BitVec.toNat_and]
  show d.toNat &&& 1 = 0 ↔ _
  rw [Nat.and_one_is_mod]

theorem dropZeros_spec (fuel : Nat) (b : Digit) (h0 : b ≠ 0) (hfuel : b.toNat < fuel) :
    ∃ w k, dropZeros fuel b = .ok w ∧ w.toNat % 2 = 1 ∧ b.toNat = w.toNat * 2 ^ k := by
  induction fuel generalizing b with
  | zero => omega
  | succ fuel ih =>
    have hb0 : b.toNat ≠ 0 := fun h => h0 (BitVec.eq_of_toNat_eq h)
    rw [dropZeros]
    by_cases heven : b.toNat % 2 = 0
    · have hshift : (b >>> 1).toNat = b.toNat / 2 := by
        rw [BitVec.toNat_ushiftRight, Nat.shiftRight_eq_div_pow, Nat.pow_one]
      have hne : b >>> 1 ≠ 0 := by
        intro h
        have := congrArg BitVec.toNat h
        rw [hshift] at this
        change b.toNat / 2 = 0 at this
        omega
      obtain ⟨w, k, hrun, hodd, hw⟩ := ih (b >>> 1) hne (by omega)
      refine ⟨w, k + 1, ?_, hodd, ?_⟩
      · rw [if_pos ((zero_eq_and_one_iff b).mpr heven), hrun]
      · rw [hshift] at hw
        rw [Nat.pow_succ, ← Nat.mul_assoc, ← hw]
        omega
    · refine ⟨b, 0, ?_, by omega, by rw [Nat.pow_zero, Nat.mul_one]⟩
      rw [if_neg (fun h => heven ((zero_eq_and_one_iff b).mp h))]

theorem digitGcdBinLoop_spec (fuel : Nat) (a b : Digit) (hodd : a.toNat % 2 = 1)
    (hfuel : a.toNat + b.toNat < fuel) :
    ∃ g, digitGcdBinLoop fuel a b = .ok g ∧ g.toNat = Nat.gcd a.toNat b.toNat := by
  induction fuel generalizing a b with
  | zero => omega
  | succ fuel ih =>
    rw [digitGcdBinLoop]
    by_cases hb : b = 0
    · refine ⟨a, if_pos hb, ?_⟩
      rw [hb]
      exact (Nat.gcd_zero_right _).symm
    obtain ⟨w, k, hrun, hwodd, hw⟩ := dropZeros_spec loopFuel b hb (toNat_lt_loopFuel b)
    have hwle : w.toNat ≤ b.toNat := by
      rw [hw]
      exact Nat.le_mul_of_pos_right _ (Nat.two_pow_pos k)
    have hlt := Stein.round_lt hodd hwodd
    -- a round of the algorithm keeps the divisor, and a power of two does not change it
    have hgcd : Nat.gcd a.toNat b.toNat =
        Nat.gcd (Stein.round a.toNat w.toNat).1 (Stein.round a.toNat w.toNat).2 := by
      rw [Stein.gcd_round, hw, Stein.gcd_mul_two_pow hodd]
    rw [if_neg hb, except_bind_of_ok hrun, hgcd]
    by_cases hwa : w < a
    · have hwa' : w.toNat < a.toNat := hwa
      have hround : Stein.round a.toNat w.toNat = (w.toNat, (a - w).toNat) := by
        rw [Stein.round, if_pos hwa', BitVec.toNat_sub_of_le (Nat.le_of_lt hwa')]
      rw [hround] at hlt ⊢
      rw [if_pos hwa]
      exact ih w (a - w) hwodd (by simp only at hlt; omega)
    · have hwa' : ¬w.toNat < a.toNat := hwa
      have hround : Stein.round a.toNat w.toNat = (a.toNat, (w - a).toNat) := by
        rw [Stein.round, if_neg hwa', BitVec.toNat_sub_of_le (Nat.le_of_not_lt hwa')]
      rw [hround] at hlt ⊢
      rw [if_neg hwa]
      exact ih a (w - a) hodd (by simp only at hlt; omega)

theorem shift_ctz {d : Digit} (hd : d ≠ 0) :
    (d >>> bnDigitCtz d).toNat % 2 = 1 ∧
      d.toNat = (d >>> bnDigitCtz d).toNat * 2 ^ bnDigitCtz d := by
  obtain ⟨-, hbit, hlow⟩ := bnDigitCtz_spec hd
  obtain ⟨u, hu, hval⟩ := Stein.exists_odd (v := d.toNat) hbit hlow
  have hshift : (d >>> bnDigitCtz d).toNat = u := by
    rw [BitVec.toNat_ushiftRight, Nat.shiftRight_eq_div_pow]
    conv_lhs => rw [hval]
    exact Nat.mul_div_cancel _ (Nat.two_pow_pos _)
  rw [hshift]
  exact ⟨hu, hval⟩

theorem bnDigitGcdBin_spec (a b : Digit) :
    ∃ g, bnDigitGcdBin a b = .ok g ∧ g.toNat = Nat.gcd a.toNat b.toNat := by
  rw [bnDigitGcdBin]
  by_cases ha : a = 0
  · refine ⟨b, if_pos ha, ?_⟩
    rw [ha]
    exact (Nat.gcd_zero_left _).symm
  rw [if_neg ha]
  by_cases hb : b = 0 ∨ a = b
  · refine ⟨a, if_pos hb, ?_⟩
    rcases hb with rfl | rfl
    · exact (Nat.gcd_zero_right _).symm
    · exact (Nat.gcd_self _).symm
  rw [if_neg hb]
  have hb0 : b ≠ 0 := fun h => hb (Or.inl h)
  obtain ⟨hodda, hvala⟩ := shift_ctz ha
  obtain ⟨hoddb, hvalb⟩ := shift_ctz hb0
  have hfuel : (a >>> bnDigitCtz a).toNat + (b >>> bnDigitCtz b).toNat < loopFuel :=
    ByValue.lt_loopFuel (show 65 ≤ 8192 by decide)
      (by have := (a >>> bnDigitCtz a).isLt; have := (b >>> bnDigitCtz b).isLt; omega)
  obtain ⟨g, hrun, hg⟩ := digitGcdBinLoop_spec loopFuel _ _ hodda hfuel
  refine ⟨g <<< min (bnDigitCtz a) (bnDigitCtz b), except_bind_of_ok hrun _, ?_⟩
  have hgcd : Nat.gcd a.toNat b.toNat = g.toNat * 2 ^ min (bnDigitCtz a) (bnDigitCtz b) := by
    rw [hg, ← Stein.gcd_mul_two_pow_both hodda hoddb, ← hvala, ← hvalb]
  -- the divisor is not larger than `a`, so no bit of it is shifted out
  have hle : g.toNat * 2 ^ min (bnDigitCtz a) (bnDigitCtz b) ≤ a.toNat := by
    have ha0 : a.toNat ≠ 0 := fun h => ha (BitVec.eq_of_toNat_eq h)
    rw [← hgcd]
    exact Nat.gcd_le_left _ (Nat.pos_of_ne_zero ha0)
  rw [hgcd, BitVec.toNat_shiftLeft, Nat.shiftLeft_eq,
    Nat.mod_eq_of_lt (Nat.lt_of_le_of_lt hle a.isLt)]

/-! ## Two pointers -/

/-- One pointer is to `bn` and the other one to the local. -/
inductive Apart {B : Type} : Arg B → Arg B → Prop
  | left (x : B) : Apart .self (.val x)
  | right (x : B) : Apart (.val x) .self

theorem Apart.symm {B : Type} {p q : Arg B} (h : Apart p q) : Apart q p := by
  cases h with
  | left x => exact .right x
  | right x => exact .left x

section

variable {B : Type} {α : Type} {p q : Arg B} {act : BnM B α} {s y : B}

theorem Apart.onPtr_ok (h : Apart p q) {a : α} (hrun : act (p.get s) = .ok a y) :
    ∃ p' s', onPtr p act s = .ok p' s' ∧ Apart p' q ∧ p'.get s' = y ∧ q.get s' = q.get s ∧
      ∀ f : B → Nat, f y = f (p.get s) → f s' = f s := by
  cases h with
  | left x =>
    have hrun : act s = .ok a y := hrun
    refine ⟨.self, y, ?_, .left x, rfl, rfl, fun f hf => hf⟩
    exact bind_of_ok hrun _
  | right x =>
    have hrun : act x = .ok a y := hrun
    refine ⟨.val y, s, ?_, .right y, rfl, rfl, fun f hf => rfl⟩
    exact exec_bind_of_ok hrun _ s

theorem Apart.onPtr_error (h : Apart p q) {e : Err} (hrun : act (p.get s) = .error e y) :
    ∃ s', onPtr p act s = .error e s' := by
  cases h with
  | left x => exact ⟨y, bind_of_error (x := act) hrun _⟩
  | right x =>
    have hrun : act x = .error e y := hrun
    have hexec : (exec x act : BnM B B) s = .error e s := by
      rw [exec_apply, hrun, fold_error]
    exact ⟨s, bind_of_error hexec _⟩

end

namespace ByValue

/-! ## Euclid's algorithm -/

/-- What a run leaves satisfies `P`, unless there was no room. -/
def EndsWith {α : Type} (P : α → Num → Prop) (r : EStateM.Result Err Num α) : Prop :=
  fold r P (fun e _ => e = .eoverflow)

theorem EndsWith.bind {α β : Type} {P : α → Num → Prop} {Q : β → Num → Prop} {x : BnM Num α}
    {f : α → BnM Num β} {s : Num} (hx : EndsWith P (x s))
    (hf : ∀ a t, P a t → EndsWith Q (f a t)) : EndsWith Q ((x >>= f) s) := by
  rw [bind_apply]
  cases hr : x s with
  | ok a t =>
    rw [hr] at hx
    exact hf a t hx
  | error e t =>
    rw [hr] at hx
    exact hx

theorem bnAssign_endsWith (r : Arg Num) (s : Num) :
    EndsWith (fun _ t => t.val = (r.get s).val) (bnAssign r s) := by
  cases r with
  | self => exact rfl
  | val y =>
    by_cases h : s.count < limbCount 64 y.val
    · rw [show bnAssign (.val y) s = .error .eoverflow s from if_pos h]
      exact rfl
    · rw [show bnAssign (.val y) s = .ok () { s with val := y.val } from if_neg h]
      exact rfl

theorem bnDiv_self (J : Junk) {x y : Num} (hy : y.val ≠ 0) :
    (∃ t, bnDiv J (.val y) .self x = .ok none t ∧ t.val = x.val % y.val) ∨
      bnDiv J (.val y) .self x = .error .eoverflow x := by
  by_cases heq : x.val = y.val
  · refine Or.inl ⟨{ x with val := 0 }, (if_neg hy).trans (if_pos heq), ?_⟩
    show 0 = x.val % y.val
    rw [heq, Nat.mod_self]
  by_cases hlt : x.val < y.val
  · exact Or.inl ⟨x, (if_neg hy).trans ((if_neg heq).trans (if_pos hlt)),
      (Nat.mod_eq_of_lt hlt).symm⟩
  by_cases hfull : x.count = limbCount 64 x.val ∧ topClz x.val < topClz y.val
  · exact Or.inr ((if_neg hy).trans ((if_neg heq).trans ((if_neg hlt).trans (if_pos hfull))))
  · exact Or.inl ⟨{ x with val := x.val % y.val },
      (if_neg hy).trans ((if_neg heq).trans ((if_neg hlt).trans (if_neg hfull))), rfl⟩

theorem gcdLoop_endsWith (J : Junk) (fuel : Nat) {ta tb : Arg Num} (h : Apart ta tb) (s : Num)
    (hfuel : (tb.get s).val < fuel) :
    EndsWith (fun r t => (r.get t).val = Nat.gcd (ta.get s).val (tb.get s).val)
      (gcdLoop J fuel ta tb s) := by
  -- induction on the fuel; the number behind `tb` is smaller in the next round
  induction fuel generalizing ta tb s with
  | zero => omega
  | succ fuel ih =>
    rw [gcdLoop]
    simp only [bind_apply, get_apply, fold_ok, bnIsZero_eq, decide_eq_true_eq]
    by_cases hb : (tb.get s).val = 0
    · rw [ite_apply_pos hb, hb, Nat.gcd_zero_right]
      exact rfl
    rw [ite_apply_neg hb]
    rcases bnDiv_self (x := ta.get s) (J fuel) hb with ⟨t, hrun, ht⟩ | hrun
    · obtain ⟨ta', s', hptr, hapart, hget, hother, -⟩ := h.onPtr_ok hrun
      rw [bind_of_ok hptr]
      have hlt := Nat.mod_lt (ta.get s).val (Nat.pos_of_ne_zero hb)
      have hnext := ih hapart.symm s' (by rw [hget, ht]; omega)
      have hgcd : Nat.gcd (tb.get s').val (ta'.get s').val =
          Nat.gcd (ta.get s).val (tb.get s).val := by
        rw [hother, hget, ht, Nat.gcd_comm, ← Nat.gcd_rec, Nat.gcd_comm]
      rwa [hgcd] at hnext
    · obtain ⟨s', hptr⟩ := h.onPtr_error hrun
      rw [bind_of_error hptr]
      exact rfl

theorem bnGcd_endsWith (J : Junk) {a b : Num} (ha : a.val < 2 ^ 2048) (hb : b.val < 2 ^ 2048)
    (bn : Num) :
    EndsWith (fun _ t => t.val = Nat.gcd a.val b.val) (bnGcd J (.val a) (.val b) bn) := by
  -- the loop from the copies of the two numbers on
  have hmain : ∀ x y : Num, y.val < 2 ^ 2048 →
      EndsWith (fun _ t => t.val = Nat.gcd x.val y.val)
        ((do let ta ← gcdLoop (J 1) loopFuel .self (.val y); bnAssign ta) x) := by
    intro x y hy
    apply EndsWith.bind (gcdLoop_endsWith (J 1) loopFuel (.left y) x
      (lt_loopFuel (show 2048 ≤ 8192 by decide) hy))
    intro r t hr
    have hassign := bnAssign_endsWith r t
    rwa [hr] at hassign
  rw [bnGcd]
  simp only [bind_apply, get_apply, fold_ok, Arg.get_val, bnIsZero_eq, bnCmp_eq, decide_eq_true_eq,
    StateErr.ite_apply, exec_apply, bnAssignInit_val]
  by_cases ha0 : a.val = 0
  · rw [if_pos ha0, ha0, Nat.gcd_zero_left]
    exact bnAssign_endsWith (.val b) bn
  rw [if_neg ha0]
  by_cases hb0 : b.val = 0
  · rw [if_pos hb0, hb0, Nat.gcd_zero_right]
    exact bnAssign_endsWith (.val a) bn
  rw [if_neg hb0]
  rcases Nat.lt_trichotomy a.val b.val with hlt | heq | hgt
  · have hne : ¬compare a.val b.val = .eq := by
      rw [Nat.compare_eq_lt.mpr hlt]
      decide
    rw [if_neg hne, if_pos (Nat.compare_eq_lt.mpr hlt), Nat.gcd_comm]
    exact hmain b a ha
  · rw [if_pos (Nat.compare_eq_eq.mpr heq), ← heq, Nat.gcd_self]
    exact bnAssign_endsWith (.val a) bn
  · have hcmp := Nat.compare_eq_gt.mpr hgt
    rw [if_neg (by rw [hcmp]; decide), if_neg (by rw [hcmp]; decide)]
    exact hmain a b hb

/-! ## The binary algorithm -/

/-- A number that fits its digits. -/
def Fits (x : Num) : Prop := x.val < 2 ^ (64 * x.count)

theorem bnRShift_ctz {x : Num} (h0 : x.val ≠ 0) :
    ∃ w, bnRShift (bnCtz x) x = .ok () ⟨x.count, w⟩ ∧ w % 2 = 1 ∧ x.val = w * 2 ^ bnCtz x := by
  obtain ⟨w, hodd, hw⟩ := bnCtz_spec (c := x.count) h0
  change x.val = w * 2 ^ bnCtz x at hw
  have hlt : 2 ^ bnCtz x < 2 ^ (64 * limbCount 64 x.val) := by
    apply Nat.lt_of_le_of_lt _ (lt_pow_limbCount (by decide) x.val)
    conv_rhs => rw [hw]
    exact Nat.le_mul_of_pos_left _ (by omega)
  have hbits := (Nat.pow_lt_pow_iff_right (by decide)).mp hlt
  have hdiv : x.val / 2 ^ bnCtz x = w := by
    conv_lhs => rw [hw]
    exact Nat.mul_div_cancel _ (Nat.two_pow_pos _)
  refine ⟨w, ?_, hodd, hw⟩
  have hrun : bnRShift (bnCtz x) x = .ok () ⟨x.count, x.val / 2 ^ bnCtz x⟩ :=
    (if_neg h0).trans (if_neg (show ¬64 * limbCount 64 x.val < bnCtz x by omega))
  rwa [hdiv] at hrun

theorem onPtr_sub {p q : Arg Num} (h : Apart p q) {s : Num} (hfits : Fits (p.get s))
    (hle : (q.get s).val ≤ (p.get s).val) :
    ∃ p' s', onPtr p (bnSub (.val (q.get s))) s = .ok p' s' ∧ Apart p' q ∧
      p'.get s' = ⟨(p.get s).count, (p.get s).val - (q.get s).val⟩ ∧ q.get s' = q.get s ∧
      s'.count = s.count := by
  have hrun : bnSub (.val (q.get s)) (p.get s) =
      .ok 0 ⟨(p.get s).count, (p.get s).val - (q.get s).val⟩ := bnSub_of_le hle hfits
  obtain ⟨p', s', hptr, hapart, hget, hother, hkeep⟩ := h.onPtr_ok hrun
  exact ⟨p', s', hptr, hapart, hget, hother, hkeep Num.count rfl⟩

theorem gcdBinLoop_eq (fuel : Nat) {ta tb : Arg Num} (h : Apart ta tb) (s : Num)
    (hta : Fits (ta.get s)) (htb : Fits (tb.get s)) (hodd : (ta.get s).val % 2 = 1)
    (hfuel : (ta.get s).val + (tb.get s).val < fuel) :
    ∃ r t, gcdBinLoop fuel (bnCtz (tb.get s)) ta tb s = .ok r t ∧ t.count = s.count ∧
      (r.get t).val = Nat.gcd (ta.get s).val (tb.get s).val := by
  -- induction on the fuel; a round makes the sum of the two numbers smaller
  induction fuel generalizing ta tb s with
  | zero => omega
  | succ fuel ih =>
    rw [gcdBinLoop]
    simp only [bind_apply, get_apply, fold_ok, bnIsZero_eq, decide_eq_true_eq]
    by_cases hb : (tb.get s).val = 0
    · refine ⟨ta, s, ite_apply_pos hb, rfl, ?_⟩
      rw [hb, Nat.gcd_zero_right]
    rw [ite_apply_neg hb]
    obtain ⟨w, hrun, hwodd, hw⟩ := bnRShift_ctz hb
    obtain ⟨tb1, s1, hptr1, hapart1, hget1, hother1, hkeep1⟩ := h.symm.onPtr_ok hrun
    have hwle : w ≤ (tb.get s).val := by
      rw [hw]
      exact Nat.le_mul_of_pos_right _ (Nat.two_pow_pos _)
    have hfits1 : Fits (tb1.get s1) := by
      rw [hget1]
      exact Nat.lt_of_le_of_lt hwle htb
    have hval1 : (tb1.get s1).val = w := by rw [hget1]
    have hcount1 : s1.count = s.count := hkeep1 Num.count rfl
    have hlt := Stein.round_lt hodd hwodd
    have hgcd : Nat.gcd (ta.get s).val (tb.get s).val =
        Nat.gcd (Stein.round (ta.get s).val w).1 (Stein.round (ta.get s).val w).2 := by
      rw [Stein.gcd_round]
      conv_lhs => rw [hw]
      rw [Stein.gcd_mul_two_pow hodd]
    rw [bind_of_ok hptr1, hgcd]
    simp only [bind_apply, get_apply, fold_ok, bnCmp_eq]
    rw [← hother1] at hta hodd hlt hfuel ⊢
    by_cases hgt : w < (ta.get s1).val
    · have hround : Stein.round (ta.get s1).val w = (w, (ta.get s1).val - w) := if_pos hgt
      obtain ⟨ta2, s2, hptr2, hapart2, hget2, hother2, hcount2⟩ :=
        onPtr_sub hapart1.symm hta (by omega)
      rw [hval1] at hget2
      rw [hround] at hlt ⊢
      rw [ite_apply_pos (by rw [hval1]; exact Nat.compare_eq_gt.mpr hgt), bind_of_ok hptr2]
      simp only [bind_apply, get_apply, fold_ok]
      obtain ⟨r, t, hloop, hcount, hr⟩ := ih hapart2.symm s2 (by rwa [hother2])
        (by rw [hget2]; exact Nat.lt_of_le_of_lt (Nat.sub_le _ _) hta)
        (by rwa [hother2, hval1])
        (by rw [hother2, hval1, hget2]; simp only at hlt ⊢; omega)
      refine ⟨r, t, hloop, by omega, ?_⟩
      rw [hr, hother2, hval1, hget2]
    · have hround : Stein.round (ta.get s1).val w = ((ta.get s1).val, w - (ta.get s1).val) :=
        if_neg hgt
      obtain ⟨tb2, s2, hptr2, hapart2, hget2, hother2, hcount2⟩ :=
        onPtr_sub hapart1 hfits1 (by omega)
      rw [hval1] at hget2
      rw [hround] at hlt ⊢
      rw [ite_apply_neg (by rw [hval1, Nat.compare_eq_gt]; exact hgt), bind_of_ok hptr2]
      simp only [bind_apply, get_apply, fold_ok]
      obtain ⟨r, t, hloop, hcount, hr⟩ := ih hapart2.symm s2 (by rwa [hother2])
        (by rw [hget2]; exact Nat.lt_of_le_of_lt (by simp only; omega) hfits1)
        (by rwa [hother2])
        (by rw [hother2, hget2]; simp only at hlt ⊢; omega)
      refine ⟨r, t, hloop, by omega, ?_⟩
      rw [hr, hother2, hget2]

/-- Two different numbers that are not zero: `bn_gcd_bin` has all the room it needs. -/
theorem bnGcdBin_eq (J : Junk) {a b : Num} (ha : a.val < 2 ^ 2048) (hb : b.val < 2 ^ 2048)
    (hfa : Fits a) (hfb : Fits b) (ha0 : a.val ≠ 0) (hb0 : b.val ≠ 0) (hne : a.val ≠ b.val)
    (bn : Num) :
    bnGcdBin J (.val a) (.val b) bn = .ok () ⟨a.count, Nat.gcd a.val b.val⟩ := by
  obtain ⟨u, hrun, hodd, hu⟩ := bnRShift_ctz ha0
  obtain ⟨w, -, hwodd, hw⟩ := bnRShift_ctz hb0
  have hule : u ≤ a.val := by
    conv_rhs => rw [hu]
    exact Nat.le_mul_of_pos_right _ (Nat.two_pow_pos _)
  have hsum : u + b.val < loopFuel :=
    lt_loopFuel (show 2049 ≤ 8192 by decide) (by rw [Nat.pow_succ]; omega)
  obtain ⟨r, t, hloop, hcount, hr⟩ := gcdBinLoop_eq loopFuel (.left b) (⟨a.count, u⟩ : Num)
    (Nat.lt_of_le_of_lt hule hfa) hfb hodd hsum
  change gcdBinLoop loopFuel (bnCtz b) .self (.val b) _ = _ at hloop
  change (r.get t).val = Nat.gcd u b.val at hr
  change t.count = a.count at hcount
  have hgcd : Nat.gcd a.val b.val = (r.get t).val * 2 ^ min (bnCtz a) (bnCtz b) := by
    conv_lhs => rw [hu, hw]
    rw [hr, Stein.gcd_mul_two_pow_both hodd hwodd, hw, Stein.gcd_mul_two_pow hodd]
  -- the result is not larger than `a`, whose digits `bn` has
  have hfit : Nat.gcd a.val b.val < 2 ^ (64 * a.count) :=
    Nat.lt_of_le_of_lt (Nat.gcd_le_left _ (Nat.pos_of_ne_zero ha0)) hfa
  have hgle : (r.get t).val ≤ Nat.gcd a.val b.val := by
    rw [hgcd]
    exact Nat.le_mul_of_pos_right _ (Nat.two_pow_pos _)
  -- the assignment and the shift back
  have hassign : bnAssign r t = .ok () ⟨a.count, (r.get t).val⟩ := by
    cases r with
    | self =>
      rw [← hcount]
      rfl
    | val y =>
      have hroom : limbCount 64 y.val ≤ t.count := by
        rw [limbCount_le_iff (by decide), hcount]
        exact Nat.lt_of_le_of_lt hgle hfit
      rw [← hcount]
      exact if_neg (not_lt.mpr hroom)
  have hshift : bnLShift (min (bnCtz a) (bnCtz b)) (⟨a.count, (r.get t).val⟩ : Num) =
      .ok () ⟨a.count, Nat.gcd a.val b.val⟩ := by
    have hpos : 0 < (r.get t).val := by
      apply Nat.pos_of_ne_zero
      intro h0
      rw [h0, Nat.zero_mul] at hgcd
      exact ha0 (Nat.gcd_eq_zero_iff.mp hgcd).1
    have hpow : 2 ^ min (bnCtz a) (bnCtz b) < 2 ^ (64 * a.count) := by
      apply Nat.lt_of_le_of_lt _ hfit
      rw [hgcd]
      exact Nat.le_mul_of_pos_left _ hpos
    have hbits := (Nat.pow_lt_pow_iff_right (by decide)).mp hpow
    rw [hgcd] at hfit ⊢
    refine (if_neg (Nat.ne_of_gt hpos)).trans ((if_neg (not_le.mpr ?_)).trans ?_)
    · show min (bnCtz a) (bnCtz b) < 64 * a.count + 8
      omega
    · show EStateM.Result.ok () (⟨a.count, (r.get t).val * 2 ^ min (bnCtz a) (bnCtz b) %
        2 ^ (64 * a.count)⟩ : Num) = _
      rw [Nat.mod_eq_of_lt hfit]
  rw [bnGcdBin]
  simp only [bind_apply, get_apply, fold_ok, Arg.get_val, bnIsZero_eq, bnCmp_eq, decide_eq_true_eq,
    StateErr.ite_apply, exec_apply, bnAssignInit_val, Nat.compare_eq_eq]
  rw [if_neg ha0, if_neg hb0, if_neg hne, hrun, fold_ok, hloop, fold_ok, hassign, fold_ok]
  exact hshift

theorem bnGcdBin_endsWith (J : Junk) {a b : Num} (ha : a.val < 2 ^ 2048) (hb : b.val < 2 ^ 2048)
    (hfa : Fits a) (hfb : Fits b) (bn : Num) :
    EndsWith (fun _ t => t.val = Nat.gcd a.val b.val) (bnGcdBin J (.val a) (.val b) bn) := by
  by_cases hmain : a.val ≠ 0 ∧ b.val ≠ 0 ∧ a.val ≠ b.val
  · rw [bnGcdBin_eq J ha hb hfa hfb hmain.1 hmain.2.1 hmain.2.2]
    exact rfl
  rw [bnGcdBin]
  simp only [bind_apply, get_apply, fold_ok, Arg.get_val, bnIsZero_eq, bnCmp_eq, decide_eq_true_eq,
    StateErr.ite_apply, Nat.compare_eq_eq]
  by_cases ha0 : a.val = 0
  · rw [if_pos ha0, ha0, Nat.gcd_zero_left]
    exact bnAssign_endsWith (.val b) bn
  rw [if_neg ha0]
  by_cases hb0 : b.val = 0
  · rw [if_pos hb0, hb0, Nat.gcd_zero_right]
    exact bnAssign_endsWith (.val a) bn
  have heq : a.val = b.val := by
    by_contra hne
    exact hmain ⟨ha0, hb0, hne⟩
  rw [if_neg hb0, if_pos heq, ← heq, Nat.gcd_self]
  exact bnAssign_endsWith (.val a) bn

end ByValue

/-! ## On records -/

section

variable {n m : Arg Bn} (J : Junk)

theorem bnGcd_refines (hn : n.WF) (hm : m.WF) :
    Refines (bnGcd J n m) (bnGcd J (n.map Bn.abs) (m.map Bn.abs)) :=
  refines_of_hom₂ (bnGcd_hom bnHom J) (bnGcd_hom absHom J) hn hm

theorem bnGcdBin_refines (hn : n.WF) (hm : m.WF) :
    Refines (bnGcdBin J n m) (bnGcdBin J (n.map Bn.abs) (m.map Bn.abs)) :=
  refines_of_hom₂ (bnGcdBin_hom bnHom J) (bnGcdBin_hom absHom J) hn hm

end

namespace Bn

theorem WF.value_lt_max {b : Bn} (h : b.WF) : b.value < 2 ^ 2048 := by
  have hbits : 64 * b.count ≤ 2048 := Nat.mul_le_mul_left 64 h.count_le
  exact h.value_lt_cap.trans_le (Nat.pow_le_pow_right (Nat.succ_pos 1) hbits)

/-- A run that has ended with the greatest common divisor, or for lack of room. -/
def LeavesGcd (a b : Bn) (r : EStateM.Result Err Bn Unit) : Prop :=
  match r with
  | .ok _ t => t.value = Nat.gcd a.value b.value
  | .error e _ => e = .eoverflow

theorem leavesGcd_of_refines {a b bn : Bn} {f : BnM Bn Unit} {g : BnM Num Unit} (h : Refines f g)
    (hbn : bn.WF)
    (hg : ByValue.EndsWith (fun _ t => t.val = Nat.gcd a.value b.value) (g bn.abs)) :
    LeavesGcd a b (f bn) := by
  rw [← (h bn hbn).1, ByValue.EndsWith, fold_mapRes] at hg
  cases hr : f bn with
  | ok x t =>
    rw [hr] at hg
    exact hg
  | error e t =>
    rw [hr] at hg
    exact hg

theorem bnGcdBin_returns (J : Junk) {a b bn : Bn} (ha : a.WF) (hb : b.WF) (hbn : bn.WF)
    (ha0 : a.value ≠ 0) (hb0 : b.value ≠ 0) (hne : a.value ≠ b.value) :
    ∃ t, bnGcdBin J (.val a) (.val b) bn = .ok () t ∧
      t.abs = ⟨a.count, Nat.gcd a.value b.value⟩ := by
  have hrun := ByValue.bnGcdBin_eq J (a := a.abs) (b := b.abs) ha.value_lt_max hb.value_lt_max
    ha.value_lt_cap hb.value_lt_cap ha0 hb0 hne bn.abs
  obtain ⟨t, ht, habs, -⟩ := (bnGcdBin_refines J (argWF_val ha) (argWF_val hb)).ok hbn hrun
  exact ⟨t, ht, habs⟩

/-- The four algorithms end, and where they return a number it is the greatest common divisor. -/
theorem gcd_spec (J : Junk) {a b bn : Bn} (ha : a.WF) (hb : b.WF) (hbn : bn.WF) (x y : Digit) :
    LeavesGcd a b (bnGcd J (.val a) (.val b) bn) ∧
      LeavesGcd a b (bnGcdBin J (.val a) (.val b) bn) ∧
      ∃ g, bnDigitGcd x y = .ok g ∧ bnDigitGcdBin x y = .ok g ∧
        g.toNat = Nat.gcd x.toNat y.toNat := by
  have hgcd := ByValue.bnGcd_endsWith J (a := a.abs) (b := b.abs) ha.value_lt_max hb.value_lt_max
    bn.abs
  have hbin := ByValue.bnGcdBin_endsWith J (a := a.abs) (b := b.abs) ha.value_lt_max
    hb.value_lt_max ha.value_lt_cap hb.value_lt_cap bn.abs
  obtain ⟨g, hrun, hg⟩ := bnDigitGcd_spec x y
  obtain ⟨g', hrun', hg'⟩ := bnDigitGcdBin_spec x y
  have heq : g' = g := BitVec.eq_of_toNat_eq (hg'.trans hg.symm)
  rw [heq] at hrun'
  exact ⟨leavesGcd_of_refines (bnGcd_refines J (argWF_val ha) (argWF_val hb)) hbn hgcd,
    leavesGcd_of_refines (bnGcdBin_refines J (argWF_val ha) (argWF_val hb)) hbn hbin,
    g, hrun, hrun', hg⟩

/-- The divisor of 12 and 18. -/
theorem gcd_spec_twelve :
    ∃ t, bnGcdBin blank (.val (oneDigit 1 12)) (.val (oneDigit 1 18)) (oneDigit 1 1) = .ok () t ∧
      t.value = 6 := by
  have h12 : (oneDigit 1 12).WF := oneDigit_wf (by decide) (by decide) (by decide)
  have h18 : (oneDigit 1 18).WF := oneDigit_wf (by decide) (by decide) (by decide)
  have h1 : (oneDigit 1 1).WF := oneDigit_wf (by decide) (by decide) (by decide)
  obtain ⟨t, ht, -⟩ := bnGcdBin_returns blank h12 h18 h1 (by decide) (by decide) (by decide)
  have hspec := (gcd_spec blank h12 h18 h1 12 18).2.1
  rw [ht] at hspec
  exact ⟨t, ht, hspec⟩

end Bn

end BigNum
