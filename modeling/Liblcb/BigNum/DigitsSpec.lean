import Liblcb.BigNum.Digits

/-!
# What the digit operations compute

Every `bn_digit_*` and `bn_digits_*` function as an equation between natural numbers.  The callers
only use these equations.
-/

namespace BigNum

open Limbs

/-! ## Trailing and leading zeros -/

theorem getLsbD_and_ne_zero {x m : Digit} :
    x &&& m ≠ 0 ↔ ∃ i, x.getLsbD i = true ∧ m.getLsbD i = true := by
  constructor
  · intro h
    by_contra hno
    apply h
    apply BitVec.eq_of_getLsbD_eq
    intro i hi
    rw [BitVec.getLsbD_and]
    by_contra hbit
    apply hno
    refine ⟨i, ?_⟩
    simpa using hbit
  · rintro ⟨i, hx, hm⟩ h
    have hbit := congrArg (fun y => BitVec.getLsbD y i) h
    simp [hx, hm] at hbit

private theorem exists_lowest_bit {d : Digit} (hd : d ≠ 0) :
    ∃ h, h < 64 ∧ d.getLsbD h = true ∧ ∀ i < h, d.getLsbD i = false := by
  have hex : ∃ i, d.getLsbD i = true := by
    by_contra hno
    apply hd
    apply BitVec.eq_of_getLsbD_eq
    intro i _
    simpa using fun h => hno ⟨i, h⟩
  refine ⟨Nat.find hex, ?_, Nat.find_spec hex, ?_⟩
  · exact BitVec.lt_of_getLsbD (Nat.find_spec hex)
  · intro i hi
    simpa using Nat.find_min hex hi

private theorem ctzMasks_foldl (h : Nat) (hh : h < 64) :
    ctzMasks.foldl (fun n m => if m.1.getLsbD h = true then n - m.2 else n) 63 =
      h := by
  have hall : ∀ k : Fin 64, ctzMasks.foldl
      (fun n m => if m.1.getLsbD k.val = true then n - m.2 else n) 63 = k.val := by
    decide
  exact hall ⟨h, hh⟩

theorem bnDigitCtz_spec {d : Digit} (hd : d ≠ 0) :
    bnDigitCtz d < 64 ∧ d.getLsbD (bnDigitCtz d) = true ∧
      ∀ i < bnDigitCtz d, d.getLsbD i = false := by
  rcases exists_lowest_bit hd with ⟨h, hh, hbit, hlow⟩
  have hreg : ∀ i, (d &&& (0 - d)).getLsbD i = true ↔ i = h := by
    intro i
    rw [BitVec.getLsbD_and, show (0 : Digit) - d = -d from BitVec.zero_sub d,
      BitVec.getLsbD_neg]
    constructor
    · intro hi
      rw [Bool.and_eq_true] at hi
      rcases hi with ⟨hdi, hxor⟩
      have hi64 : i < 64 := BitVec.lt_of_getLsbD hdi
      have hno : ¬ ∃ j < i, d.getLsbD j = true := by
        intro hyes
        rw [hdi, decide_eq_true hi64, decide_eq_true hyes] at hxor
        exact Bool.false_ne_true hxor
      by_contra hne
      rcases Nat.lt_or_gt_of_ne hne with hlt | hgt
      · rw [hlow i hlt] at hdi
        exact Bool.false_ne_true hdi
      · exact hno ⟨h, hgt, hbit⟩
    · rintro rfl
      have hno : ¬ ∃ j < i, d.getLsbD j = true := by
        rintro ⟨j, hj, hdj⟩
        rw [hlow j hj] at hdj
        exact Bool.false_ne_true hdj
      simp [hbit, hno, hh]
  have hctz : bnDigitCtz d = h := by
    rw [bnDigitCtz, if_neg hd, ← ctzMasks_foldl h hh]
    -- with one bit left in `reg`, a mask test is a test of that bit's position
    have hmask : ∀ m : Digit, d &&& (0 - d) &&& m ≠ 0 ↔ m.getLsbD h = true := by
      intro m
      rw [getLsbD_and_ne_zero]
      constructor
      · rintro ⟨i, hi, hm⟩
        rwa [← (hreg i).mp hi]
      · intro hm
        exact ⟨h, (hreg h).mpr rfl, hm⟩
    simp only [hmask]
  rw [hctz]
  exact ⟨hh, hbit, hlow⟩

/-- The state of the `bn_digit_clz` search before the mask of bit `k` of the position is tried:
`h` is the highest set bit, and the set bits left in `reg` agree with it above bit `k`. -/
private structure ClzInv (h k : Nat) (s : Digit × Nat) : Prop where
  top : s.1.getLsbD h = true
  le : ∀ i, s.1.getLsbD i = true → i ≤ h
  agree : ∀ i, s.1.getLsbD i = true → i / 2 ^ k = h / 2 ^ k
  cnt : s.2 + h / 2 ^ k * 2 ^ k = 63

private theorem div_two_pow_succ (i k : Nat) :
    i / 2 ^ k = 2 * (i / 2 ^ (k + 1)) + (i.testBit k).toNat := by
  rw [Nat.pow_succ, ← Nat.div_div_eq_div_mul, Nat.testBit_eq_decide_div_mod_eq]
  have := Nat.div_add_mod (i / 2 ^ k) 2
  have hlt := Nat.mod_lt (i / 2 ^ k) (by decide : 0 < 2)
  by_cases h1 : i / 2 ^ k % 2 = 1
  · simp only [h1, decide_true, Bool.toNat_true]
    omega
  · simp only [h1, decide_false, Bool.toNat_false]
    omega

private theorem clzInv_step {h k : Nat} {s : Digit × Nat} {m : Digit}
    (hm : ∀ i < 64, m.getLsbD i = i.testBit k) (hs : ClzInv h (k + 1) s) :
    ClzInv h k (if s.1 &&& m ≠ 0 then (s.1 &&& m, s.2 - 2 ^ k) else s) := by
  have hcnt := hs.cnt
  have hh := div_two_pow_succ h k
  have hpow : 2 ^ (k + 1) = 2 * 2 ^ k := by rw [Nat.pow_succ, Nat.mul_comm]
  have hmul : h / 2 ^ (k + 1) * 2 ^ (k + 1) = 2 * (h / 2 ^ (k + 1)) * 2 ^ k := by
    rw [hpow, ← Nat.mul_assoc, Nat.mul_comm _ 2]
  have hset : ∀ i, s.1.getLsbD i = true → i < 64 := fun i hi => BitVec.lt_of_getLsbD hi
  by_cases hne : s.1 &&& m ≠ 0
  · rw [if_pos hne]
    rcases getLsbD_and_ne_zero.mp hne with ⟨i, hi, hmi⟩
    rw [hm i (hset i hi)] at hmi
    -- a bit that is left has index bit `k` set, so the highest bit has
    have htop : h.testBit k = true := by
      have hik := div_two_pow_succ i k
      have hle : i / 2 ^ k ≤ h / 2 ^ k := Nat.div_le_div_right (hs.le i hi)
      have hag := hs.agree i hi
      by_contra hf
      rw [hmi, Bool.toNat_true] at hik
      rw [Bool.eq_false_of_not_eq_true hf, Bool.toNat_false] at hh
      omega
    simp only [htop, Bool.toNat_true] at hh
    refine ⟨?_, ?_, ?_, ?_⟩
    · rw [BitVec.getLsbD_and, hs.top, hm h (hset h hs.top), htop]
      rfl
    · intro j hj
      rw [BitVec.getLsbD_and, Bool.and_eq_true] at hj
      exact hs.le j hj.1
    · intro j hj
      rw [BitVec.getLsbD_and, Bool.and_eq_true, hm j (hset j (by simp_all))] at hj
      have hjk := div_two_pow_succ j k
      have hag := hs.agree j hj.1
      simp only [hj.2, Bool.toNat_true] at hjk
      omega
    · have hexp : h / 2 ^ k * 2 ^ k = 2 * (h / 2 ^ (k + 1)) * 2 ^ k + 2 ^ k := by
        rw [hh, Nat.add_mul, Nat.one_mul]
      have hle : h / 2 ^ k * 2 ^ k ≤ h := Nat.div_mul_le_self h _
      have hlt := hset h hs.top
      simp only
      omega
  · rw [if_neg hne]
    -- no bit that is left has it, so nothing is decided here
    have hclear : ∀ i, s.1.getLsbD i = true → i.testBit k = false := by
      intro i hi
      by_contra hbit
      apply hne
      refine getLsbD_and_ne_zero.mpr ⟨i, hi, ?_⟩
      rw [hm i (hset i hi)]
      simpa using hbit
    simp only [hclear h hs.top, Bool.toNat_false] at hh
    refine ⟨hs.top, hs.le, ?_, ?_⟩
    · intro j hj
      have hjk := div_two_pow_succ j k
      have hag := hs.agree j hj
      simp only [hclear j hj, Bool.toNat_false] at hjk
      omega
    · rw [hh, Nat.add_zero]
      omega

theorem bnDigitClz_spec {d : Digit} (hd : d ≠ 0) : bnDigitClz d + d.toNat.log2 = 63 := by
  have hne : d.toNat ≠ 0 := fun h => hd (BitVec.eq_of_toNat_eq (by simpa using h))
  have hlog : d.toNat.log2 < 64 := (Nat.log2_lt hne).mpr d.isLt
  have hinit : ClzInv d.toNat.log2 6 (d, 63) := by
    refine ⟨?_, ?_, ?_, ?_⟩
    · exact Nat.testBit_log2 hne
    · intro i hi
      by_contra hlt
      have hsmall : d.toNat < 2 ^ i :=
        (Nat.log2_lt hne).mp (by omega)
      have := Nat.testBit_lt_two_pow hsmall
      rw [show d.toNat.testBit i = true from hi] at this
      exact Bool.false_ne_true this.symm
    · intro i hi
      have hi64 := BitVec.lt_of_getLsbD hi
      omega
    · simp [Nat.div_eq_of_lt hlog]
  have hfin := clzInv_step (m := 0xaaaaaaaaaaaaaaaa) (by decide) <|
    clzInv_step (m := 0xcccccccccccccccc) (by decide) <|
    clzInv_step (m := 0xf0f0f0f0f0f0f0f0) (by decide) <|
    clzInv_step (m := 0xff00ff00ff00ff00) (by decide) <|
    clzInv_step (m := 0xffff0000ffff0000) (by decide) <|
    clzInv_step (m := 0xffffffff00000000) (by decide) hinit
  have hcnt := hfin.cnt
  rw [Nat.pow_zero, Nat.div_one, Nat.mul_one] at hcnt
  rw [bnDigitClz, if_neg hd]
  exact hcnt

/-! ## Products, sums and differences of single digits -/

theorem bnDigitMult_toNat (a b : Digit) :
    (bnDigitMult a b).1.toNat + 2 ^ 64 * (bnDigitMult a b).2.toNat = a.toNat * b.toNat := by
  have ha := a.isLt
  have hb := b.isLt
  have hab : a.toNat * b.toNat < 2 ^ 128 := by
    calc a.toNat * b.toNat < 2 ^ 64 * 2 ^ 64 := Nat.mul_lt_mul'' ha hb
      _ = 2 ^ 128 := by decide
  have htm : (a.setWidth 128 * b.setWidth 128).toNat = a.toNat * b.toNat := by
    rw [BitVec.toNat_mul, BitVec.toNat_setWidth, BitVec.toNat_setWidth,
      Nat.mod_eq_of_lt (show a.toNat < 2 ^ 128 by omega),
      Nat.mod_eq_of_lt (show b.toNat < 2 ^ 128 by omega), Nat.mod_eq_of_lt hab]
  simp only [bnDigitMult, BitVec.toNat_setWidth, BitVec.toNat_ushiftRight, htm,
    Nat.shiftRight_eq_div_pow]
  omega

theorem bnDigitMult_le (a b : Digit) :
    (bnDigitMult a b).1.toNat + 2 ^ 64 * (bnDigitMult a b).2.toNat ≤
      (2 ^ 64 - 1) * (2 ^ 64 - 1) := by
  rw [bnDigitMult_toNat]
  exact Nat.mul_le_mul (by have := a.isLt; omega) (by have := b.isLt; omega)

theorem toNat_add_carry (x y : Digit) :
    (x + y).toNat + 2 ^ 64 * (if x + y < y then (1 : Digit) else 0).toNat =
      x.toNat + y.toNat := by
  have hx := x.isLt
  have hy := y.isLt
  have hadd : (x + y).toNat = (x.toNat + y.toNat) % 2 ^ 64 := BitVec.toNat_add x y
  split
  · rename_i h
    rw [BitVec.lt_def, hadd] at h
    rw [hadd, show (1 : Digit).toNat = 1 from rfl]
    omega
  · rename_i h
    rw [BitVec.lt_def, hadd] at h
    rw [hadd, show (0 : Digit).toNat = 0 from rfl]
    omega

theorem toNat_sub_borrow (x y : Digit) :
    (x - y).toNat + y.toNat =
      x.toNat + 2 ^ 64 * (if maxDigit - y < x - y then (1 : Digit) else 0).toNat := by
  have hx := x.isLt
  have hy := y.isLt
  have hsub : (x - y).toNat = (2 ^ 64 - y.toNat + x.toNat) % 2 ^ 64 := BitVec.toNat_sub x y
  have hmax : (maxDigit - y).toNat = 2 ^ 64 - 1 - y.toNat := by
    rw [BitVec.toNat_sub, show (maxDigit).toNat = 2 ^ 64 - 1 from rfl]
    omega
  split
  · rename_i h
    rw [BitVec.lt_def, hsub, hmax] at h
    rw [hsub, show (1 : Digit).toNat = 1 from rfl]
    omega
  · rename_i h
    rw [BitVec.lt_def, hsub, hmax] at h
    rw [hsub, show (0 : Digit).toNat = 0 from rfl]
    omega

theorem toNat_bit_le (p : Prop) [Decidable p] : (if p then (1 : Digit) else 0).toNat ≤ 1 := by
  split <;> decide

theorem addStep_toNat (a b c : Digit) (hc : c.toNat ≤ 1) :
    (addStep a b c).2.toNat ≤ 1 ∧
      (addStep a b c).1.toNat + 2 ^ 64 * (addStep a b c).2.toNat =
        a.toNat + 1 * b.toNat + c.toNat := by
  have h1 := toNat_add_carry a c
  have hle := toNat_bit_le (a + c < c)
  by_cases hb0 : b = 0
  · simp only [addStep, if_pos hb0]
    rw [hb0, show (0 : Digit).toNat = 0 from rfl]
    exact ⟨hle, by omega⟩
  · have h2 := toNat_add_carry (a + c) b
    have hb := b.isLt
    have ha := a.isLt
    simp only [addStep, if_neg hb0]
    by_cases h : a + c + b < b
    · rw [if_pos h, show (1 : Digit).toNat = 1 from rfl] at h2
      rw [if_pos h, show (1 : Digit).toNat = 1 from rfl]
      have hlt := (a + c + b).isLt
      omega
    · rw [if_neg h, show (0 : Digit).toNat = 0 from rfl] at h2
      rw [if_neg h]
      omega

theorem subStep_toNat (a b c : Digit) (hc : c.toNat ≤ 1) :
    (subStep a b c).2.toNat ≤ 1 ∧
      (subStep a b c).1.toNat + 1 * b.toNat + c.toNat =
        a.toNat + 2 ^ 64 * (subStep a b c).2.toNat := by
  have h1 := toNat_sub_borrow a c
  have hle := toNat_bit_le (maxDigit - c < a - c)
  by_cases hb0 : b = 0
  · simp only [subStep, if_pos hb0]
    rw [hb0, show (0 : Digit).toNat = 0 from rfl]
    exact ⟨hle, by omega⟩
  · have h2 := toNat_sub_borrow (a - c) b
    have hb := b.isLt
    have ha := a.isLt
    simp only [subStep, if_neg hb0]
    by_cases h : maxDigit - b < a - c - b
    · rw [if_pos h, show (1 : Digit).toNat = 1 from rfl] at h2
      rw [if_pos h, show (1 : Digit).toNat = 1 from rfl]
      have hlt := (a - c - b).isLt
      omega
    · rw [if_neg h, show (0 : Digit).toNat = 0 from rfl] at h2
      rw [if_neg h]
      omega

private theorem toNat_carry_sum {hi : Digit} {p : Prop} [Decidable p] {k : Digit}
    (hfit : k.toNat + hi.toNat + (if p then (1 : Digit) else 0).toNat < 2 ^ 64) :
    (if p then k + hi + 1 else k + hi).toNat =
      k.toNat + hi.toNat + (if p then (1 : Digit) else 0).toNat := by
  split
  · rename_i h
    rw [if_pos h, show (1 : Digit).toNat = 1 from rfl] at hfit
    rw [BitVec.toNat_add, BitVec.toNat_add, show (1 : Digit).toNat = 1 from rfl]
    omega
  · rename_i h
    rw [if_neg h, show (0 : Digit).toNat = 0 from rfl] at hfit
    rw [BitVec.toNat_add, show (0 : Digit).toNat = 0 from rfl]
    omega

theorem addMultStep_toNat (d a b c : Digit) :
    (addMultStep d a b c).1.toNat + 2 ^ 64 * (addMultStep d a b c).2.toNat =
      a.toNat + d.toNat * b.toNat + c.toNat := by
  have hprod : ∀ t : Digit × Digit, t = (if b ≠ 0 then bnDigitMult d b else (0, 0)) →
      t.1.toNat + 2 ^ 64 * t.2.toNat = d.toNat * b.toNat ∧
        t.1.toNat + 2 ^ 64 * t.2.toNat ≤ (2 ^ 64 - 1) * (2 ^ 64 - 1) := by
    rintro t rfl
    by_cases hb0 : b ≠ 0
    · rw [if_pos hb0]
      exact ⟨bnDigitMult_toNat d b, bnDigitMult_le d b⟩
    · rw [if_neg hb0, not_not.mp hb0]
      simp
  rcases hprod _ rfl with ⟨hmul, hle⟩
  simp only [addMultStep]
  generalize (if b ≠ 0 then bnDigitMult d b else (0, 0)) = t at hmul hle ⊢
  have h1 := toNat_add_carry a c
  have h2 := toNat_add_carry (a + c) t.1
  have ha := a.isLt
  have hc := c.isLt
  rw [← hmul, toNat_carry_sum]
  · omega
  · omega

theorem subMultStep_toNat (d a b c : Digit) :
    (subMultStep d a b c).1.toNat + d.toNat * b.toNat + c.toNat =
      a.toNat + 2 ^ 64 * (subMultStep d a b c).2.toNat := by
  have h1 := toNat_sub_borrow a c
  by_cases hb0 : b = 0
  · simp only [subMultStep, if_pos hb0]
    rw [hb0, show (0 : Digit).toNat = 0 from rfl]
    omega
  · have hmul := bnDigitMult_toNat d b
    have hle := bnDigitMult_le d b
    simp only [subMultStep, if_neg hb0]
    generalize bnDigitMult d b = t at hmul hle ⊢
    have h2 := toNat_sub_borrow (a - c) t.1
    have hc := c.isLt
    have hres := (a - c - t.1).isLt
    rw [← hmul, toNat_carry_sum]
    · omega
    · omega

/-! ## Sums and differences of arrays -/

private theorem toNat_one_digit : (1 : Digit).toNat = 1 := rfl

private theorem toNat_zero_digit : (0 : Digit).toNat = 0 := rfl

@[simp] theorem length_incLoop (as : List Digit) : (incLoop as).1.length = as.length := by
  induction as with
  | nil => rfl
  | cons a as ih =>
    simp only [incLoop]
    split <;> simp [ih]

theorem incLoop_val (as : List Digit) :
    val (incLoop as).1 + 2 ^ (64 * as.length) * (incLoop as).2.toNat = val as + 1 := by
  induction as with
  | nil => simp [incLoop]
  | cons a as ih =>
    have hadd := toNat_add_carry a 1
    rw [toNat_one_digit] at hadd
    by_cases h : 1 ≤ a + 1
    · rw [if_neg (BitVec.not_lt.mpr h), toNat_zero_digit] at hadd
      simp only [incLoop, if_pos h, val_cons, toNat_zero_digit]
      omega
    · rw [if_pos (BitVec.not_le.mp h), toNat_one_digit] at hadd
      simp only [incLoop, if_neg h, val_cons, List.length_cons, pow_succ_mul]
      have hmul := congrArg (2 ^ 64 * ·) ih
      simp only [Nat.mul_add, ← Nat.mul_assoc] at hmul
      omega

@[simp] theorem length_bnDigitsAddDigit (as : List Digit) (b : Digit) :
    (bnDigitsAddDigit as b).1.length = as.length := by
  cases as with
  | nil => rfl
  | cons a as =>
    simp only [bnDigitsAddDigit]
    split
    · rfl
    · split <;> simp

theorem bnDigitsAddDigit_val (as : List Digit) (b : Digit) (hne : as ≠ []) :
    val (bnDigitsAddDigit as b).1 + 2 ^ (64 * as.length) * (bnDigitsAddDigit as b).2.toNat =
      val as + b.toNat := by
  match as, hne with
  | a :: as, _ =>
    have hadd := toNat_add_carry a b
    by_cases hb : b = 0
    · simp [bnDigitsAddDigit, hb]
    · by_cases h : b ≤ a + b
      · rw [if_neg (BitVec.not_lt.mpr h), toNat_zero_digit] at hadd
        simp only [bnDigitsAddDigit, if_neg hb, if_pos h, val_cons, toNat_zero_digit]
        omega
      · rw [if_pos (BitVec.not_le.mp h), toNat_one_digit] at hadd
        simp only [bnDigitsAddDigit, if_neg hb, if_neg h, val_cons, List.length_cons,
          pow_succ_mul]
        have hmul := congrArg (2 ^ 64 * ·) (incLoop_val as)
        simp only [Nat.mul_add, ← Nat.mul_assoc] at hmul
        omega

@[simp] theorem length_decLoop (as : List Digit) (b : Digit) :
    (decLoop as b).1.length = as.length := by
  induction as generalizing b with
  | nil => rfl
  | cons a as ih =>
    simp only [decLoop]
    split <;> simp [ih]

theorem decLoop_val (as : List Digit) (b : Digit) :
    val (decLoop as b).1 + b.toNat = val as + 2 ^ (64 * as.length) * (decLoop as b).2.toNat := by
  induction as generalizing b with
  | nil => simp [decLoop]
  | cons a as ih =>
    by_cases hb : b = 0
    · simp [decLoop, hb]
    · have hsub := toNat_sub_borrow a b
      have hrec := ih (if maxDigit - b < a - b then 1 else 0)
      simp only [decLoop, if_neg hb, val_cons, List.length_cons, pow_succ_mul]
      have hmul := congrArg (2 ^ 64 * ·) hrec
      simp only [Nat.mul_add, ← Nat.mul_assoc] at hmul
      omega

@[simp] theorem length_bnDigitsSubDigit (as : List Digit) (b : Digit) :
    (bnDigitsSubDigit as b).1.length = as.length := by
  cases as with
  | nil => rfl
  | cons a as =>
    simp only [bnDigitsSubDigit]
    split <;> simp

theorem bnDigitsSubDigit_val (as : List Digit) (b : Digit) (hne : as ≠ []) :
    val (bnDigitsSubDigit as b).1 + b.toNat =
      val as + 2 ^ (64 * as.length) * (bnDigitsSubDigit as b).2.toNat := by
  match as, hne with
  | a :: as, _ =>
    by_cases hb : b = 0
    · simp [bnDigitsSubDigit, hb]
    · have hsub := toNat_sub_borrow a b
      have hrec := decLoop_val as (if maxDigit - b < a - b then 1 else 0)
      simp only [bnDigitsSubDigit, if_neg hb, val_cons, List.length_cons, pow_succ_mul]
      have hmul := congrArg (2 ^ 64 * ·) hrec
      simp only [Nat.mul_add, ← Nat.mul_assoc] at hmul
      omega

section
variable {addRest : List Digit → Digit → List Digit × Digit} {k : Nat} {r : List Digit × Digit}

theorem carryOut_pass (hk : k ≤ r.1.length) (h : ¬(r.2 ≠ 0 ∧ k < r.1.length)) :
    carryOut addRest k r = r ∧ 2 ^ (64 * r.1.length) * r.2.toNat = 2 ^ (64 * k) * r.2.toNat := by
  refine ⟨if_neg h, ?_⟩
  rcases Nat.lt_or_eq_of_le hk with hlt | heq
  · have h0 : r.2 = 0 := by
      by_contra hne
      exact h ⟨hne, hlt⟩
    simp [h0]
  · rw [heq]

theorem carryOut_rest (hk : k ≤ r.1.length) (h : r.2 ≠ 0 ∧ k < r.1.length)
    (hlen : (addRest (r.1.drop k) r.2).1.length = (r.1.drop k).length) :
    (carryOut addRest k r).1.length = r.1.length ∧
    (carryOut addRest k r).2 = (addRest (r.1.drop k) r.2).2 ∧
    val (carryOut addRest k r).1 =
      val (r.1.take k) + 2 ^ (64 * k) * val (addRest (r.1.drop k) r.2).1 := by
  rw [carryOut, if_pos h]
  refine ⟨?_, rfl, ?_⟩
  · rw [List.length_append, hlen, List.length_take, List.length_drop]
    omega
  · rw [val_append, List.length_take, Nat.min_eq_left hk]

theorem pow_length (hk : k ≤ r.1.length) :
    2 ^ (64 * r.1.length) = 2 ^ (64 * k) * 2 ^ (64 * (r.1.drop k).length) := by
  rw [← Nat.pow_add, ← Nat.mul_add, List.length_drop, Nat.add_sub_cancel' hk]

theorem carryOut_add (hk : k ≤ r.1.length) :
    (carryOut bnDigitsAddDigit k r).1.length = r.1.length ∧
    val (carryOut bnDigitsAddDigit k r).1 +
        2 ^ (64 * r.1.length) * (carryOut bnDigitsAddDigit k r).2.toNat =
      val r.1 + 2 ^ (64 * k) * r.2.toNat := by
  by_cases h : r.2 ≠ 0 ∧ k < r.1.length
  · have hadd := bnDigitsAddDigit_val (r.1.drop k) r.2 (by simpa using h.2)
    obtain ⟨hlen, hcarry, hval⟩ := carryOut_rest hk h (length_bnDigitsAddDigit (r.1.drop k) r.2)
    refine ⟨hlen, ?_⟩
    rw [hval, hcarry, val_take_drop k r.1 hk, pow_length hk]
    have hmul := congrArg (2 ^ (64 * k) * ·) hadd
    simp only [Nat.mul_add, ← Nat.mul_assoc] at hmul
    omega
  · obtain ⟨hsame, hpow⟩ := @carryOut_pass bnDigitsAddDigit _ _ hk h
    rw [hsame, hpow]
    exact ⟨rfl, rfl⟩

theorem carryOut_sub (hk : k ≤ r.1.length) :
    (carryOut bnDigitsSubDigit k r).1.length = r.1.length ∧
    val (carryOut bnDigitsSubDigit k r).1 + 2 ^ (64 * k) * r.2.toNat =
      val r.1 + 2 ^ (64 * r.1.length) * (carryOut bnDigitsSubDigit k r).2.toNat := by
  by_cases h : r.2 ≠ 0 ∧ k < r.1.length
  · have hsub := bnDigitsSubDigit_val (r.1.drop k) r.2 (by simpa using h.2)
    obtain ⟨hlen, hcarry, hval⟩ := carryOut_rest hk h (length_bnDigitsSubDigit (r.1.drop k) r.2)
    refine ⟨hlen, ?_⟩
    rw [hval, hcarry, val_take_drop k r.1 hk, pow_length hk]
    have hmul := congrArg (2 ^ (64 * k) * ·) hsub
    simp only [Nat.mul_add, ← Nat.mul_assoc] at hmul
    omega
  · obtain ⟨hsame, hpow⟩ := @carryOut_pass bnDigitsSubDigit _ _ hk h
    rw [hsame, hpow]
    exact ⟨rfl, rfl⟩

end

theorem bnDigitsAdd_ok {a b : List Digit} (hlen : b.length ≤ a.length) :
    ∃ r, bnDigitsAdd a b = .ok r ∧ r.1.length = a.length ∧
      val r.1 + 2 ^ (64 * a.length) * r.2.toNat = val a + val b := by
  unfold bnDigitsAdd
  by_cases h0 : b.length = 0
  · rw [if_pos h0, List.length_eq_zero_iff.mp h0]
    exact ⟨_, rfl, rfl, by simp⟩
  · rw [if_neg h0, if_neg (by omega)]
    have hloop := (carryLoop_add (m := 1) (fun c : Digit => c.toNat ≤ 1)
      (fun x y c hc => addStep_toNat x y c hc) a b 0 (by decide) hlen).2
    rcases carryOut_add (k := b.length) (r := carryLoop addStep a b 0) (by simpa using hlen)
      with ⟨hl, hv⟩
    rw [length_carryLoop] at hl hv
    refine ⟨_, rfl, hl, ?_⟩
    rw [hv, hloop, toNat_zero_digit]
    omega

theorem bnDigitsAdd_error {a b : List Digit} (hlen : a.length < b.length) :
    bnDigitsAdd a b = .error .eoverflow := by
  unfold bnDigitsAdd
  rw [if_neg (by omega), if_pos hlen]

theorem bnDigitsSubInt_val {a b : List Digit} (hlen : b.length ≤ a.length) :
    (bnDigitsSubInt a b).1.length = a.length ∧
    val (bnDigitsSubInt a b).1 + val b =
      val a + 2 ^ (64 * a.length) * (bnDigitsSubInt a b).2.toNat := by
  unfold bnDigitsSubInt
  by_cases h0 : b.length = 0
  · rw [if_pos h0, List.length_eq_zero_iff.mp h0]
    exact ⟨rfl, by simp⟩
  · rw [if_neg h0]
    have hloop := (carryLoop_sub (m := 1) (fun c : Digit => c.toNat ≤ 1)
      (fun x y c hc => subStep_toNat x y c hc) a b 0 (by decide) hlen).2
    rcases carryOut_sub (k := b.length) (r := carryLoop subStep a b 0) (by simpa using hlen)
      with ⟨hl, hv⟩
    rw [length_carryLoop] at hl hv
    rw [toNat_zero_digit] at hloop
    exact ⟨hl, by omega⟩

theorem bnDigitsSub_ok {a b : List Digit} (hlen : b.length ≤ a.length) :
    ∃ r, bnDigitsSub a b = .ok r ∧ r.1.length = a.length ∧
      val r.1 + val b = val a + 2 ^ (64 * a.length) * r.2.toNat := by
  unfold bnDigitsSub
  by_cases h0 : b.length = 0
  · rw [if_pos h0, List.length_eq_zero_iff.mp h0]
    exact ⟨_, rfl, rfl, by simp⟩
  · rw [if_neg h0, if_neg (by omega)]
    exact ⟨_, rfl, bnDigitsSubInt_val hlen⟩

theorem bnDigitsSub_error {a b : List Digit} (hlen : a.length < b.length) :
    bnDigitsSub a b = .error .eoverflow := by
  unfold bnDigitsSub
  rw [if_neg (by omega), if_pos hlen]

/-! ## Products with a digit -/

theorem bnDigitsAddDigitMult_val {a b : List Digit} (d : Digit) (hlen : b.length ≤ a.length) :
    (bnDigitsAddDigitMult a b d).length = a.length ∧
    val (bnDigitsAddDigitMult a b d) = (val a + d.toNat * val b) % 2 ^ (64 * a.length) := by
  -- a list of `a.length` digits is determined by its value up to the dropped carry
  have hmod : ∀ (r : List Digit) (c v : Nat), r.length = a.length →
      val r + 2 ^ (64 * a.length) * c = v → val r = v % 2 ^ (64 * a.length) := by
    intro r c v hl hv
    have hlt := val_lt r
    rw [hl] at hlt
    rw [← hv, Nat.add_mul_mod_self_left, Nat.mod_eq_of_lt hlt]
  unfold bnDigitsAddDigitMult
  by_cases hd : d = 1
  · rw [if_pos hd]
    rcases bnDigitsAdd_ok hlen with ⟨r, hr, hl, hv⟩
    rw [hr, hd, toNat_one_digit, Nat.one_mul]
    exact ⟨hl, hmod _ _ _ hl hv⟩
  · rw [if_neg hd]
    have hloop := (carryLoop_add (m := d.toNat) (fun _ : Digit => True)
      (fun x y c _ => ⟨trivial, addMultStep_toNat d x y c⟩) a b 0 trivial hlen).2
    rcases carryOut_add (k := b.length) (r := carryLoop (addMultStep d) a b 0)
      (by simpa using hlen) with ⟨hl, hv⟩
    rw [length_carryLoop] at hl hv
    refine ⟨hl, hmod _ _ _ hl (hv.trans ?_)⟩
    rw [hloop, toNat_zero_digit, Nat.add_zero]

theorem bnDigitsSubDigitMult_val {a b : List Digit} (d : Digit) (hlen : b.length ≤ a.length) :
    (bnDigitsSubDigitMult a b d).1.length = a.length ∧
    val (bnDigitsSubDigitMult a b d).1 + d.toNat * val b =
      val a + 2 ^ (64 * a.length) * (bnDigitsSubDigitMult a b d).2.toNat := by
  unfold bnDigitsSubDigitMult
  by_cases hd : d = 1
  · rw [if_pos hd, hd, toNat_one_digit, Nat.one_mul]
    exact bnDigitsSubInt_val hlen
  · rw [if_neg hd]
    have hloop := (carryLoop_sub (m := d.toNat) (fun _ : Digit => True)
      (fun x y c _ => ⟨trivial, subMultStep_toNat d x y c⟩) a b 0 trivial hlen).2
    rcases carryOut_sub (k := b.length) (r := carryLoop (subMultStep d) a b 0)
      (by simpa using hlen) with ⟨hl, hv⟩
    rw [length_carryLoop] at hl hv
    rw [toNat_zero_digit] at hloop
    exact ⟨hl, by omega⟩

@[simp] theorem length_multDigitLoop (d : Digit) (as : List Digit) (c : Digit) :
    (multDigitLoop d as c).length = as.length := by
  induction as generalizing c with
  | nil => rfl
  | cons a as ih => simp [multDigitLoop, ih]

theorem multDigitLoop_val (d : Digit) (as : List Digit) (c : Digit) :
    val (multDigitLoop d as c) = (d.toNat * val as + c.toNat) % 2 ^ (64 * as.length) := by
  induction as generalizing c with
  | nil => simp [multDigitLoop, Nat.mod_one]
  | cons a as ih =>
    have hprod : ∀ t : Digit × Digit, t = (if a ≠ 0 then bnDigitMult d a else (a, 0)) →
        t.1.toNat + 2 ^ 64 * t.2.toNat = d.toNat * a.toNat ∧
          t.1.toNat + 2 ^ 64 * t.2.toNat ≤ (2 ^ 64 - 1) * (2 ^ 64 - 1) := by
      rintro t rfl
      by_cases ha0 : a ≠ 0
      · rw [if_pos ha0]
        exact ⟨bnDigitMult_toNat d a, bnDigitMult_le d a⟩
      · rw [if_neg ha0, not_not.mp ha0]
        simp
    rcases hprod _ rfl with ⟨hmul, hle⟩
    simp only [multDigitLoop]
    generalize (if a ≠ 0 then bnDigitMult d a else (a, 0)) = t at hmul hle ⊢
    have hadd := toNat_add_carry t.1 c
    have hbit := toNat_bit_le (t.1 + c < c)
    have hcarry : ((if t.1 + c < c then (1 : Digit) else 0) + t.2).toNat =
        (if t.1 + c < c then (1 : Digit) else 0).toNat + t.2.toNat := by
      rw [BitVec.toNat_add]
      omega
    rw [val_cons, ih, hcarry, val_cons, List.length_cons, pow_succ_mul, ← Nat.mul_mod_mul_left]
    have hlow : (t.1 + c).toNat < 2 ^ 64 := (t.1 + c).isLt
    have hnum : d.toNat * (a.toNat + 2 ^ 64 * val as) + c.toNat = (t.1 + c).toNat + 2 ^ 64 *
        (d.toNat * val as + ((if t.1 + c < c then (1 : Digit) else 0).toNat + t.2.toNat)) := by
      calc d.toNat * (a.toNat + 2 ^ 64 * val as) + c.toNat
          = d.toNat * a.toNat + c.toNat + 2 ^ 64 * (d.toNat * val as) := by ring
        _ = _ := by omega
    rw [hnum, Nat.mul_mod_mul_left, Nat.mod_mul, Nat.add_mul_mod_self_left,
      Nat.mod_eq_of_lt hlow, Nat.add_mul_div_left _ _ (by decide), Nat.div_eq_of_lt hlow,
      Nat.zero_add]

/-! ## Shifts -/

theorem length_toBytes (a : List Digit) : (toBytes a).length = 8 * a.length := by
  simp [toBytes]

theorem val_toBytes (a : List Digit) : val (toBytes a) = val a := by
  rw [toBytes, val_limbs_of_lt]
  rw [← Nat.mul_assoc]
  exact val_lt a

theorem length_ofBytes (bs : List (BitVec 8)) : (ofBytes bs).length = bs.length / 8 := by
  simp [ofBytes]

theorem val_ofBytes {bs : List (BitVec 8)} (h8 : 8 ∣ bs.length) :
    val (ofBytes bs) = val bs := by
  rw [ofBytes, val_limbs_of_lt]
  have hlt := val_lt bs
  rcases h8 with ⟨k, hk⟩
  rw [hk, Nat.mul_div_cancel_left k (by decide)]
  rwa [hk, ← Nat.mul_assoc] at hlt

private theorem toNat_shift_or {bits : Nat} (hb : bits < 64) (tm crr : Digit)
    (hc : crr.toNat < 2 ^ bits) :
    ((tm <<< bits) ||| crr).toNat + 2 ^ 64 * (tm >>> (64 - bits)).toNat =
      tm.toNat * 2 ^ bits + crr.toNat := by
  have hpow : 2 ^ 64 = 2 ^ bits * 2 ^ (64 - bits) := by
    rw [← Nat.pow_add, Nat.add_sub_cancel' (by omega)]
  rw [BitVec.toNat_or, BitVec.toNat_shiftLeft, BitVec.toNat_ushiftRight, Nat.shiftLeft_eq,
    Nat.shiftRight_eq_div_pow, Nat.mul_comm tm.toNat, hpow, Nat.mul_mod_mul_left,
    ← Nat.two_pow_add_eq_or_of_lt hc]
  have hdiv := Nat.mod_add_div tm.toNat (2 ^ (64 - bits))
  have hmul := congrArg (2 ^ bits * ·) hdiv
  simp only [Nat.mul_add] at hmul
  rw [Nat.mul_assoc (2 ^ bits) (2 ^ (64 - bits))]
  omega

@[simp] theorem length_lShiftLoop (bits : Nat) (as : List Digit) (c : Digit) :
    (lShiftLoop bits as c).length = as.length := by
  induction as generalizing c with
  | nil => rfl
  | cons a as ih => simp [lShiftLoop, ih]

theorem lShiftLoop_val {bits : Nat} (hb : bits < 64) (as : List Digit) (c : Digit)
    (hc : c.toNat < 2 ^ bits) :
    val (lShiftLoop bits as c) = (val as * 2 ^ bits + c.toNat) % 2 ^ (64 * as.length) := by
  induction as generalizing c with
  | nil => simp [lShiftLoop, Nat.mod_one]
  | cons a as ih =>
    have hstep := toNat_shift_or hb a c hc
    have hcrr : (a >>> (64 - bits)).toNat < 2 ^ bits := by
      rw [BitVec.toNat_ushiftRight, Nat.shiftRight_eq_div_pow, Nat.div_lt_iff_lt_mul
        (Nat.two_pow_pos _), ← Nat.pow_add, Nat.add_sub_cancel' (show bits ≤ 64 by omega)]
      exact a.isLt
    have hlow : ((a <<< bits) ||| c).toNat < 2 ^ 64 := ((a <<< bits) ||| c).isLt
    have hnum : (a.toNat + 2 ^ 64 * val as) * 2 ^ bits + c.toNat =
        ((a <<< bits) ||| c).toNat +
          2 ^ 64 * (val as * 2 ^ bits + (a >>> (64 - bits)).toNat) := by
      calc (a.toNat + 2 ^ 64 * val as) * 2 ^ bits + c.toNat
          = a.toNat * 2 ^ bits + c.toNat + 2 ^ 64 * (val as * 2 ^ bits) := by ring
        _ = _ := by omega
    rw [lShiftLoop, val_cons, ih _ hcrr, val_cons, List.length_cons, pow_succ_mul, hnum,
      Nat.mod_mul, Nat.add_mul_mod_self_left, Nat.mod_eq_of_lt hlow,
      Nat.add_mul_div_left _ _ (by decide), Nat.div_eq_of_lt hlow, Nat.zero_add]

@[simp] theorem length_rShiftLoop (bits : Nat) (as : List Digit) :
    (rShiftLoop bits as).length = as.length := by
  fun_induction rShiftLoop bits as with
  | case1 => rfl
  | case2 => rfl
  | case3 a a' as ih => simpa using ih

theorem rShiftLoop_val {bits : Nat} (hb : bits < 64) (as : List Digit) :
    val (rShiftLoop bits as) = val as / 2 ^ bits := by
  fun_induction rShiftLoop bits as with
  | case1 => simp
  | case2 a => simp [Nat.shiftRight_eq_div_pow]
  | case3 a a' as ih =>
    have hpow : 2 ^ 64 = 2 ^ (64 - bits) * 2 ^ bits := by
      rw [← Nat.pow_add, Nat.sub_add_cancel (by omega)]
    have hsmall : a.toNat / 2 ^ bits < 2 ^ (64 - bits) := by
      rw [Nat.div_lt_iff_lt_mul (Nat.two_pow_pos _), ← hpow]
      exact a.isLt
    have hfirst : ((a >>> bits) ||| (a' <<< (64 - bits))).toNat =
        a.toNat / 2 ^ bits + 2 ^ (64 - bits) * (val (a' :: as) % 2 ^ bits) := by
      have hlow : val (a' :: as) % 2 ^ bits = a'.toNat % 2 ^ bits := by
        rw [val_cons, hpow, Nat.mul_comm (2 ^ (64 - bits)), Nat.mul_assoc,
          Nat.add_mul_mod_self_left]
      rw [hlow, BitVec.toNat_or, BitVec.toNat_ushiftRight, BitVec.toNat_shiftLeft,
        Nat.shiftRight_eq_div_pow, Nat.shiftLeft_eq, Nat.mul_comm a'.toNat, hpow,
        Nat.mul_mod_mul_left, Nat.or_comm, ← Nat.two_pow_add_eq_or_of_lt hsmall, Nat.add_comm]
    rw [val_cons, hfirst, ih, val_cons a, hpow, Nat.mul_comm (2 ^ (64 - bits)) (2 ^ bits),
      Nat.mul_assoc (2 ^ bits), Nat.mul_assoc (2 ^ bits), Nat.add_mul_div_left _ _ (Nat.two_pow_pos _)]
    have hdiv := Nat.mod_add_div (val (a' :: as)) (2 ^ bits)
    calc a.toNat / 2 ^ bits + 2 ^ (64 - bits) * (val (a' :: as) % 2 ^ bits) +
          2 ^ bits * (2 ^ (64 - bits) * (val (a' :: as) / 2 ^ bits))
        = a.toNat / 2 ^ bits + 2 ^ (64 - bits) * (val (a' :: as) % 2 ^ bits +
          2 ^ bits * (val (a' :: as) / 2 ^ bits)) := by ring
      _ = _ := by rw [hdiv]

private theorem bytes_up (a : List Digit) {i : Nat} (hi : i ≤ 8 * a.length) :
    (ofBytes (List.replicate i 0 ++ (toBytes a).take (8 * a.length - i))).length =
        a.length ∧
    val (ofBytes (List.replicate i 0 ++ (toBytes a).take (8 * a.length - i))) =
      val a * 2 ^ (8 * i) % 2 ^ (64 * a.length) := by
  have hbytes : (List.replicate i 0 ++ (toBytes a).take (8 * a.length - i)).length =
      8 * a.length := by
    rw [List.length_append, List.length_replicate, List.length_take, length_toBytes]
    omega
  have h64 : 8 * (8 * a.length) = 64 * a.length := by rw [← Nat.mul_assoc]
  constructor
  · rw [length_ofBytes, hbytes, Nat.mul_div_cancel_left _ (by decide)]
  · rw [val_ofBytes (by rw [hbytes]; exact Nat.dvd_mul_right _ _), val_append,
      val_replicate_zero, Nat.zero_add, List.length_replicate, val_take, val_toBytes,
      Nat.mul_comm (val a), ← Nat.mul_mod_mul_left, ← Nat.pow_add, ← Nat.mul_add,
      Nat.add_sub_cancel' hi, h64]

private theorem bytes_down (a : List Digit) {i : Nat} (hi : i ≤ 8 * a.length) :
    (ofBytes ((toBytes a).drop i ++ List.replicate i 0)).length = a.length ∧
    val (ofBytes ((toBytes a).drop i ++ List.replicate i 0)) = val a / 2 ^ (8 * i) := by
  have hbytes : ((toBytes a).drop i ++ List.replicate i 0).length = 8 * a.length := by
    rw [List.length_append, List.length_replicate, List.length_drop, length_toBytes]
    omega
  constructor
  · rw [length_ofBytes, hbytes, Nat.mul_div_cancel_left _ (by decide)]
  · rw [val_ofBytes (by rw [hbytes]; exact Nat.dvd_mul_right _ _), val_append,
      val_replicate_zero, Nat.mul_zero, Nat.add_zero, val_drop, val_toBytes]

private theorem lShiftLoop_skip {a : List Digit} {k s : Nat} (hk : k ≤ a.length)
    (hb : s < 64) (hzero : val (a.take k) = 0) :
    (a.take k ++ lShiftLoop s (a.drop k) 0).length = a.length ∧
    val (a.take k ++ lShiftLoop s (a.drop k) 0) = val a * 2 ^ s % 2 ^ (64 * a.length) := by
  have hpow : 2 ^ (64 * a.length) = 2 ^ (64 * k) * 2 ^ (64 * (a.length - k)) := by
    rw [← Nat.pow_add, ← Nat.mul_add, Nat.add_sub_cancel' hk]
  constructor
  · rw [List.length_append, List.length_take, length_lShiftLoop, List.length_drop]
    omega
  · rw [val_append, hzero, Nat.zero_add, List.length_take, Nat.min_eq_left hk,
      lShiftLoop_val hb _ _ (Nat.two_pow_pos _), List.length_drop,
      show (0 : Digit).toNat = 0 from rfl, Nat.add_zero, val_take_drop k a hk, hzero,
      Nat.zero_add, hpow, Nat.mul_assoc, Nat.mul_mod_mul_left]

theorem bnDigitsLShift_ok {a : List Digit} (bits : Nat) (hbits : bits < 64 * a.length + 8) :
    ∃ r, bnDigitsLShift a bits = .ok r ∧ r.length = a.length ∧
      val r = val a * 2 ^ bits % 2 ^ (64 * a.length) := by
  unfold bnDigitsLShift
  by_cases h0 : a.length = 0 ∨ bits = 0
  · rw [if_pos h0]
    refine ⟨a, rfl, rfl, ?_⟩
    rcases h0 with h0 | h0
    · simp [List.length_eq_zero_iff.mp h0]
    · rw [h0, Nat.pow_zero, Nat.mul_one, Nat.mod_eq_of_lt (val_lt a)]
  · rw [if_neg h0]
    by_cases hmove : bits % 8 = 0 ∨ 64 < bits
    · have hi : bits / 8 ≤ 8 * a.length := by
        omega
      -- Whole bytes are moved first; the bits that are left go through the digits above the zeros.
      rcases bytes_up a hi with ⟨hlen, hmoved⟩
      rw [if_pos hmove]
      simp only [if_neg (Nat.not_lt.mpr hi)]
      generalize ofBytes (List.replicate (bits / 8) 0 ++
        (toBytes a).take (8 * a.length - bits / 8)) = a' at hmoved hlen ⊢
      by_cases h8 : bits % 8 = 0
      · rw [if_pos h8]
        refine ⟨a', rfl, hlen, ?_⟩
        rw [hmoved, show 8 * (bits / 8) = bits from by omega]
      · rw [if_neg h8]
        have hskip : bits / 8 / 8 ≤ a'.length := by
          rw [hlen]
          omega
        have hzero : val (a'.take (bits / 8 / 8)) = 0 := by
          rw [val_take, hmoved, Nat.mod_mod_of_dvd _ (Nat.pow_dvd_pow 2
            (Nat.mul_le_mul_left 64 (hlen ▸ hskip)))]
          apply Nat.mod_eq_zero_of_dvd
          apply Dvd.dvd.mul_left
          exact Nat.pow_dvd_pow 2 (by omega)
        rcases lShiftLoop_skip (s := bits - bits / 8 * 8) hskip (by omega) hzero with ⟨hl, hv⟩
        refine ⟨_, rfl, hl.trans hlen, ?_⟩
        rw [hv, hlen, hmoved, Nat.mod_mul_mod, Nat.mul_assoc, ← Nat.pow_add,
          show 8 * (bits / 8) + (bits - bits / 8 * 8) = bits from by omega]
    · rw [if_neg hmove]
      refine ⟨_, rfl, length_lShiftLoop _ _ _, ?_⟩
      rw [lShiftLoop_val (by omega) _ _ (Nat.two_pow_pos _),
        show (0 : Digit).toNat = 0 from rfl, Nat.add_zero]

theorem bnDigitsLShift_undef {a : List Digit} {bits : Nat} (hne : a.length ≠ 0)
    (hbits : 64 * a.length + 8 ≤ bits) : bnDigitsLShift a bits = .error .undef := by
  have hi : 8 * a.length < bits / 8 := by
    omega
  unfold bnDigitsLShift
  rw [if_neg (by omega), if_pos (Or.inr (by omega))]
  simp only [if_pos hi]

theorem bnDigitsRShift_ok {a : List Digit} (bits : Nat) (hbits : bits ≤ 64 * a.length) :
    ∃ r, bnDigitsRShift a bits = .ok r ∧ r.length = a.length ∧ val r = val a / 2 ^ bits := by
  unfold bnDigitsRShift
  by_cases h0 : a.length = 0 ∨ bits = 0
  · rw [if_pos h0]
    refine ⟨a, rfl, rfl, ?_⟩
    rcases h0 with h0 | h0
    · simp [List.length_eq_zero_iff.mp h0]
    · rw [h0, Nat.pow_zero, Nat.div_one]
  · rw [if_neg h0]
    by_cases hmove : bits % 8 = 0 ∨ 64 < bits
    · have hi : bits / 8 ≤ 8 * a.length := by
        omega
      rcases bytes_down a hi with ⟨hlen, hmoved⟩
      rw [if_pos hmove]
      simp only [if_neg (Nat.not_lt.mpr hi)]
      generalize ofBytes ((toBytes a).drop (bits / 8) ++ List.replicate (bits / 8) 0) = a'
        at hmoved hlen ⊢
      by_cases h8 : bits % 8 = 0
      · rw [if_pos h8]
        refine ⟨a', rfl, hlen, ?_⟩
        rw [hmoved, show 8 * (bits / 8) = bits from by omega]
      · have hcount : a'.length - bits / 8 / 8 ≠ 0 := by
          rw [hlen]
          omega
        rw [if_neg h8, if_neg hcount]
        generalize hk : a'.length - bits / 8 / 8 = k at hcount
        have hle : k ≤ a'.length := by omega
        -- the digits left out at the end are zero
        have hzero : val (a'.drop k) = 0 := by
          rw [val_drop, hmoved, Nat.div_div_eq_div_mul, ← Nat.pow_add]
          apply Nat.div_eq_of_lt
          refine (val_lt a).trans_le (Nat.pow_le_pow_right (by decide) ?_)
          rw [← hk, hlen]
          omega
        refine ⟨_, rfl, ?_, ?_⟩
        · rw [List.length_append, length_rShiftLoop, List.length_take, List.length_drop]
          omega
        · have hsame : val (a'.take k) = val a' := by
            rw [val_take_drop k a' hle, hzero, Nat.mul_zero, Nat.add_zero]
          rw [val_append, hzero, Nat.mul_zero, Nat.add_zero, rShiftLoop_val (by omega), hsame,
            hmoved, Nat.div_div_eq_div_mul, ← Nat.pow_add,
            show 8 * (bits / 8) + (bits - bits / 8 * 8) = bits from by omega]
    · rw [if_neg hmove]
      exact ⟨_, rfl, length_rShiftLoop _ _, rShiftLoop_val (by omega) _⟩

theorem bnDigitsRShift_undef {a : List Digit} {bits : Nat} (hne : a.length ≠ 0)
    (hbits : 64 * a.length < bits) : bnDigitsRShift a bits = .error .undef := by
  unfold bnDigitsRShift
  rw [if_neg (by omega), if_pos (Or.inr (by omega))]
  by_cases hi : 8 * a.length < bits / 8
  · simp only [if_pos hi]
  · have h8 : bits % 8 ≠ 0 := by
      omega
    have hlen := (bytes_down a (Nat.not_lt.mp hi)).1
    simp only [if_neg hi, if_neg h8, hlen]
    rw [if_pos]
    omega

/-! ## Length, order, quotient digit -/

theorem bnDigitsCalcDigits_eq (a : List Digit) : bnDigitsCalcDigits a = limbCount 64 (val a) := by
  induction a with
  | nil => rfl
  | cons d ds ih =>
    rw [bnDigitsCalcDigits, ih, val_cons]
    have hd := d.isLt
    by_cases h0 : val ds = 0
    · simp only [h0, limbCount_zero, if_true, Nat.mul_zero, Nat.add_zero]
      by_cases hd0 : d = 0
      · simp [hd0]
      · have hne : d.toNat ≠ 0 := fun h => hd0 (BitVec.eq_of_toNat_eq (by simpa using h))
        have hlog : d.toNat.log2 < 64 := (Nat.log2_lt hne).mpr hd
        rw [if_neg hd0, limbCount, if_neg hne, Nat.div_eq_of_lt hlog]
    · have hc : limbCount 64 (val ds) ≠ 0 := fun h => h0 (limbCount_eq_zero.mp h)
      rw [if_neg hc]
      apply le_antisymm
      · rw [Nat.succ_le_iff, lt_limbCount_iff (by decide)]
        have hlow : 2 ^ (64 * (limbCount 64 (val ds) - 1)) ≤ val ds :=
          (lt_limbCount_iff (by decide) _ _).mp (by omega)
        rw [show limbCount 64 (val ds) = limbCount 64 (val ds) - 1 + 1 from by omega,
          pow_succ_mul]
        omega
      · rw [limbCount_le_iff (by decide), pow_succ_mul]
        have hlt := lt_pow_limbCount (w := 64) (by decide) (val ds)
        omega

theorem bnDigitsCmp_eq {a b : List Digit} (hlen : a.length = b.length) :
    bnDigitsCmp a b = compare (val a) (val b) := by
  induction a generalizing b with
  | nil =>
    cases b with
    | nil => rfl
    | cons => simp at hlen
  | cons x xs ih =>
    match b, hlen with
    | y :: ys, hlen =>
      have hx := x.isLt
      have hy := y.isLt
      rw [bnDigitsCmp, ih (by simpa using hlen), val_cons, val_cons]
      rcases Nat.lt_trichotomy (val xs) (val ys) with h | h | h
      · rw [Nat.compare_eq_lt.mpr h, Ordering.lt_then, eq_comm, Nat.compare_eq_lt]
        omega
      · rw [h, Nat.compare_eq_eq.mpr rfl, Ordering.eq_then]
        rcases Nat.lt_trichotomy x.toNat y.toNat with h' | h' | h'
        · rw [Nat.compare_eq_lt.mpr h', eq_comm, Nat.compare_eq_lt]
          omega
        · rw [h']
          simp
        · rw [Nat.compare_eq_gt.mpr h', eq_comm, Nat.compare_eq_gt]
          omega
      · rw [Nat.compare_eq_gt.mpr h, Ordering.gt_then, eq_comm, Nat.compare_eq_gt]
        omega

theorem bnDigitDivShort_ok (lo hi : Digit) {divisor : Digit} (hd : divisor ≠ 0) :
    ∃ q, bnDigitDivShort lo hi divisor = .ok q ∧
      q.toNat = (lo.toNat + 2 ^ 64 * hi.toNat) / divisor.toNat % 2 ^ 64 := by
  unfold bnDigitDivShort
  rw [if_neg hd]
  refine ⟨_, rfl, ?_⟩
  have hlo := lo.isLt
  have hhi := hi.isLt
  have hdv := divisor.isLt
  have htm : ((hi.setWidth 128 <<< 64) ||| lo.setWidth 128).toNat =
      lo.toNat + 2 ^ 64 * hi.toNat := by
    rw [BitVec.toNat_or, BitVec.toNat_shiftLeft, BitVec.toNat_setWidth, BitVec.toNat_setWidth,
      Nat.mod_eq_of_lt (show hi.toNat < 2 ^ 128 by omega),
      Nat.mod_eq_of_lt (show lo.toNat < 2 ^ 128 by omega), Nat.shiftLeft_eq,
      Nat.mod_eq_of_lt (by omega), Nat.mul_comm, ← Nat.two_pow_add_eq_or_of_lt hlo, Nat.add_comm]
  simp only [BitVec.toNat_setWidth, BitVec.toNat_udiv, htm]
  rw [Nat.mod_eq_of_lt (show divisor.toNat < 2 ^ 128 by omega)]

theorem bnDigitIsPow2_spec {d : Digit} (h : bnDigitIsPow2 d = true) :
    d.toNat = 2 ^ bnDigitCtz d := by
  simp only [bnDigitIsPow2, Bool.and_eq_true, bne_iff_ne, beq_iff_eq] at h
  rcases h with ⟨hd, hand⟩
  rcases bnDigitCtz_spec hd with ⟨hlt, hbit, hlow⟩
  have hne : d.toNat ≠ 0 := fun h => hd (BitVec.eq_of_toNat_eq (by simpa using h))
  have hnat : d.toNat &&& (d.toNat - 1) = 0 := by
    have h1 : (d - 1).toNat = d.toNat - 1 := by
      have := d.isLt
      rw [BitVec.toNat_sub, show (1 : Digit).toNat = 1 from rfl]
      omega
    rw [← h1, ← BitVec.toNat_and, hand]
    rfl
  rcases (Nat.and_sub_one_eq_zero_iff_isPowerOfTwo hne).mp hnat with ⟨k, hk⟩
  have hk' : d.toNat.testBit (bnDigitCtz d) = true := hbit
  rw [hk, Nat.testBit_two_pow] at hk'
  rw [hk, of_decide_eq_true hk']

theorem bnDigitsMultDigit_ok {a : List Digit} (d : Digit) (hne : a.length ≠ 0) :
    ∃ r, bnDigitsMultDigit a d = .ok r ∧ r.length = a.length ∧
      val r = val a * d.toNat % 2 ^ (64 * a.length) := by
  unfold bnDigitsMultDigit
  rw [if_neg hne]
  by_cases hp : bnDigitIsPow2 d = true
  · have hd : d ≠ 0 := by
      intro h
      simp [bnDigitIsPow2, h] at hp
    have hlt := (bnDigitCtz_spec hd).1
    rw [if_pos hp, bnDigitIsPow2_spec hp]
    exact bnDigitsLShift_ok _ (by omega)
  · rw [if_neg hp]
    refine ⟨_, rfl, length_multDigitLoop _ _ _, ?_⟩
    rw [multDigitLoop_val, show (0 : Digit).toNat = 0 from rfl, Nat.add_zero, Nat.mul_comm]

end BigNum
