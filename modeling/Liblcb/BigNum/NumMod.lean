import Liblcb.BigNum.NumRead
import Mathlib.Data.ZMod.Basic
import Mathlib.Data.ZMod.Units

/-!
# Modular arithmetic by value

What the modular functions of `Mod` compute on reduced operands when the number has room for the
intermediate result.  A number with `2 * digits(m)` digits has room for a product.
-/

namespace BigNum.ByValue

open Limbs StateErr BnOps

variable {c k q a b m : Nat}

/-! ## Room -/

theorem lt_cap_of_limbCount_le (h : limbCount 64 a ≤ c) : a < 2 ^ (64 * c) :=
  (limbCount_le_iff (by decide) _ _).mp h

theorem limbCount_le_of_lt (ha : a < m) (hc : limbCount 64 m ≤ c) : limbCount 64 a ≤ c :=
  (limbCount_mono (by decide) (Nat.le_of_lt ha)).trans hc

theorem four_mul_le_cap (hc : limbCount 64 m < c) : 4 * m ≤ 2 ^ (64 * c) := by
  obtain ⟨k, rfl⟩ : ∃ k, c = k + 1 := ⟨c - 1, by omega⟩
  have hm := lt_cap_of_limbCount_le (Nat.le_of_lt_succ hc)
  rw [pow_succ_mul]
  have : 4 ≤ 2 ^ 64 := by decide
  exact Nat.mul_le_mul this (Nat.le_of_lt hm)

theorem topClz_le_of_le_square (ha : a < m * m) (hc : 2 * limbCount 64 m ≤ c)
    (hfull : c = limbCount 64 a) : topClz m ≤ topClz a := by
  have hmb := (Bn.bitCount_lt_iff m _).mp le_rfl
  have hab : bitCount a ≤ 2 * bitCount m := by
    rw [Bn.bitCount_lt_iff, Nat.two_mul, Nat.pow_add]
    exact ha.trans (Nat.mul_lt_mul_of_lt_of_lt hmb hmb)
  have := Bn.bitCount_le_limbCount m
  unfold topClz
  omega

/-! ## The operations below -/

theorem bnAdd_val (hb : limbCount 64 b ≤ c) :
    bnAdd (.val ⟨k, b⟩) (⟨c, a⟩ : Num) =
      .ok (BitVec.ofNat 64 ((a + b) / 2 ^ (64 * c))) ⟨c, (a + b) % 2 ^ (64 * c)⟩ :=
  if_neg (not_lt.mpr hb)

theorem bnSub_val (hb : limbCount 64 b ≤ c) :
    bnSub (.val ⟨k, b⟩) (⟨c, a⟩ : Num) =
      .ok (if a < b then 1 else 0) ⟨c, (a + 2 ^ (64 * c) - b) % 2 ^ (64 * c)⟩ :=
  if_neg (not_lt.mpr hb)

theorem bnSub_of_le (hb : b ≤ a) (ha : a < 2 ^ (64 * c)) :
    bnSub (.val ⟨k, b⟩) (⟨c, a⟩ : Num) = .ok 0 ⟨c, a - b⟩ := by
  rw [bnSub_val ((limbCount_le_iff (by decide) _ _).mpr (by omega)), if_neg (by omega),
    show a + 2 ^ (64 * c) - b = a - b + 2 ^ (64 * c) by omega, Nat.add_mod_right,
    Nat.mod_eq_of_lt (by omega)]

theorem bnAddDigit_val {d : Digit} (hd : d ≠ 0) (hc : c ≠ 0) :
    bnAddDigit d (⟨c, a⟩ : Num) = .ok (some (BitVec.ofNat 64 ((a + d.toNat) / 2 ^ (64 * c))))
      ⟨c, (a + d.toNat) % 2 ^ (64 * c)⟩ :=
  (if_neg hd).trans (if_neg hc)

theorem bnSubDigit_val {d : Digit} (hd : d ≠ 0) (hc : c ≠ 0) :
    bnSubDigit d (⟨c, a⟩ : Num) = .ok (some (if a < d.toNat then 1 else 0))
      ⟨c, (a + 2 ^ (64 * c) - d.toNat) % 2 ^ (64 * c)⟩ :=
  (if_neg hd).trans (if_neg hc)

theorem bnMult_val (J : Junk) (h : limbCount 64 a + limbCount 64 b ≤ c) :
    bnMult J (.val ⟨k, b⟩) (⟨c, a⟩ : Num) = .ok () ⟨c, a * b⟩ := by
  by_cases h0 : a = 0 ∨ b = 0
  · rw [Nat.mul_eq_zero.mpr h0]
    exact if_pos h0
  · exact (if_neg h0).trans (if_neg (not_lt.mpr h))

theorem bnAssign_val (hb : limbCount 64 b ≤ c) :
    bnAssign (.val ⟨k, b⟩) (⟨c, a⟩ : Num) = .ok () ⟨c, b⟩ :=
  if_neg (not_lt.mpr hb)

theorem bnRShift_val {bits : Nat} (hbits : bits ≤ 64) (a : Nat) :
    bnRShift bits (⟨c, a⟩ : Num) = .ok () ⟨c, a / 2 ^ bits⟩ := by
  by_cases h0 : a = 0
  · refine (if_pos h0).trans ?_
    rw [h0, Nat.zero_div]
  · have hL : limbCount 64 a ≠ 0 := fun h => h0 (limbCount_eq_zero.mp h)
    exact (if_neg h0).trans (if_neg (show ¬64 * limbCount 64 a < bits by omega))

theorem bnRShift_one (a : Nat) : bnRShift 1 (⟨c, a⟩ : Num) = .ok () ⟨c, a / 2⟩ :=
  bnRShift_val (by decide) a

/-! ## Reduction -/

/-- A number of `c` digits that `bn_div` has room to divide by `m`. -/
def Reduces (c m a : Nat) : Prop := a < m ∨ limbCount 64 a ≠ c ∨ topClz m ≤ topClz a

theorem bnDiv_null (J : Junk) (hm : m ≠ 0) (hlt : m < a) (hfit : limbCount 64 a ≠ c) :
    bnDiv J (.val ⟨q, m⟩) .null (⟨c, a⟩ : Num) = .ok none ⟨c, a / m⟩ := by
  refine (if_neg hm).trans ((if_neg (show ¬a = m by omega)).trans ?_)
  refine (if_neg (show ¬a < m by omega)).trans (if_neg ?_)
  show ¬(c = limbCount 64 a ∧ topClz a < topClz m)
  exact fun h => hfit h.1.symm

theorem bnMod_eq (J : Junk) (hm : m ≠ 0) (hfit : Reduces c m a) :
    bnMod J (.val ⟨q, m⟩) (⟨c, a⟩ : Num) = .ok () ⟨c, a % m⟩ := by
  have hdiv : bnDiv J (.val ⟨q, m⟩) .self (⟨c, a⟩ : Num) = .ok none ⟨c, a % m⟩ := by
    refine (if_neg hm).trans ?_
    by_cases heq : a = m
    · rw [heq, Nat.mod_self]
      exact if_pos rfl
    · refine (if_neg heq).trans ?_
      by_cases hlt : a < m
      · rw [Nat.mod_eq_of_lt hlt]
        exact if_pos hlt
      · refine (if_neg hlt).trans (if_neg ?_)
        show ¬(c = limbCount 64 a ∧ topClz a < topClz m)
        unfold Reduces at hfit
        omega
  rw [bnMod, bind_apply, hdiv, fold_ok, pure_apply]

theorem bnMod_narrow (J : Junk) (hm : m ≠ 0) (hfit : ¬Reduces c m a) :
    bnMod J (.val ⟨q, m⟩) (⟨c, a⟩ : Num) = .error .eoverflow ⟨c, a⟩ := by
  have hne : ¬a = m := fun h => hfit (Or.inr (Or.inr (by rw [h])))
  have hlt : ¬a < m := fun h => hfit (Or.inl h)
  have hfull : c = limbCount 64 a ∧ topClz a < topClz m := by
    unfold Reduces at hfit
    omega
  have hdiv : bnDiv J (.val ⟨q, m⟩) .self (⟨c, a⟩ : Num) = .error .eoverflow ⟨c, a⟩ :=
    (if_neg hm).trans ((if_neg hne).trans ((if_neg hlt).trans (if_pos hfull)))
  rw [bnMod, bind_of_error hdiv]

theorem bnMod_of_lt (J : Junk) (ha : a < m) :
    bnMod J (.val ⟨q, m⟩) (⟨c, a⟩ : Num) = .ok () ⟨c, a⟩ := by
  rw [bnMod_eq J (by omega) (Or.inl ha), Nat.mod_eq_of_lt ha]

theorem bnMod_of_lt_square (J : Junk) (hm : m ≠ 0) (ha : a < m * m)
    (hc : 2 * limbCount 64 m ≤ c) :
    bnMod J (.val ⟨q, m⟩) (⟨c, a⟩ : Num) = .ok () ⟨c, a % m⟩ := by
  apply bnMod_eq J hm
  by_cases hfull : limbCount 64 a = c
  · exact Or.inr (Or.inr (topClz_le_of_le_square ha hc hfull.symm))
  · exact Or.inr (Or.inl hfull)

/-! ## Products -/

/-- `c` digits have room for the product of `x` and `y` and for its reduction by `m`. -/
def ModMultFits (c m x y : Nat) : Prop :=
  x = 0 ∨ y = 0 ∨ limbCount 64 x + limbCount 64 y ≤ c ∧
    (x * y < m ∨ limbCount 64 (x * y) ≠ c ∨ topClz m ≤ topClz (x * y))

theorem bnModMult_of_fits (J : Junk) (n : Arg Num) {x y : Nat} (hm : m ≠ 0)
    (hn : (n.get ⟨c, x⟩).val = y) (h : ModMultFits c m x y) :
    bnModMult J n (.val ⟨q, m⟩) (⟨c, x⟩ : Num) = .ok () ⟨c, x * y % m⟩ := by
  by_cases h0 : x = 0 ∨ y = 0
  · have hmult : bnMult (J 0) n (⟨c, x⟩ : Num) = .ok () ⟨c, 0⟩ :=
      if_pos (by rwa [hn])
    rw [bnModMult, bind_of_ok hmult, bnMod_of_lt (J 1) (Nat.pos_of_ne_zero hm),
      Nat.mul_eq_zero.mpr h0, Nat.zero_mod]
  · obtain ⟨hroom, hfit⟩ := (h.resolve_left fun hx => h0 (Or.inl hx)).resolve_left
      fun hy => h0 (Or.inr hy)
    have hmult : bnMult (J 0) n (⟨c, x⟩ : Num) = .ok () ⟨c, x * y⟩ := by
      subst hn
      exact (if_neg h0).trans (if_neg (not_lt.mpr hroom))
    rw [bnModMult, bind_of_ok hmult, bnMod_eq (J 1) hm hfit]

theorem bnModMult_of_not_fits (J : Junk) (n : Arg Num) {x y : Nat} (hm : m ≠ 0)
    (hn : (n.get ⟨c, x⟩).val = y) (h : ¬ModMultFits c m x y) :
    ∃ t, bnModMult J n (.val ⟨q, m⟩) (⟨c, x⟩ : Num) = .error .eoverflow t := by
  have h0 : ¬(x = 0 ∨ y = 0) := fun h0 => h (h0.imp_right Or.inl)
  subst hn
  by_cases hroom : limbCount 64 x + limbCount 64 (n.get ⟨c, x⟩).val ≤ c
  · -- the product is made and the division refuses it
    have hfit : ¬Reduces c m (x * (n.get ⟨c, x⟩).val) :=
      fun hfit => h (Or.inr (Or.inr ⟨hroom, hfit⟩))
    have hmult : bnMult (J 0) n (⟨c, x⟩ : Num) = .ok () ⟨c, x * (n.get ⟨c, x⟩).val⟩ :=
      (if_neg h0).trans (if_neg (not_lt.mpr hroom))
    exact ⟨_, by rw [bnModMult, bind_of_ok hmult, bnMod_narrow (J 1) hm hfit]⟩
  · have hmult : bnMult (J 0) n (⟨c, x⟩ : Num) = .error .eoverflow ⟨c, x⟩ :=
      (if_neg h0).trans (if_pos (not_le.mp hroom))
    exact ⟨_, by rw [bnModMult, bind_of_error hmult]⟩

theorem bnModMult_sound (J : Junk) (n : Arg Num) {x : Nat} {t : Num} (hm : m ≠ 0)
    (h : bnModMult J n (.val ⟨q, m⟩) (⟨c, x⟩ : Num) = .ok () t) :
    t = ⟨c, x * (n.get ⟨c, x⟩).val % m⟩ := by
  by_cases hfit : ModMultFits c m x (n.get ⟨c, x⟩).val
  · rw [bnModMult_of_fits J n hm rfl hfit] at h
    injection h with _ h
    exact h.symm
  · obtain ⟨t', herr⟩ := bnModMult_of_not_fits (q := q) J n hm rfl hfit
    rw [herr] at h
    cases h

/-! ## Sums and differences -/

theorem bnModAdd_eq (ha : a < m) (hb : b < m) (hroom : 2 * m ≤ 2 ^ (64 * c)) :
    bnModAdd (.val ⟨k, b⟩) (.val ⟨q, m⟩) (⟨c, a⟩ : Num) = .ok () ⟨c, (a + b) % m⟩ := by
  have hbc : limbCount 64 b ≤ c := (limbCount_le_iff (by decide) _ _).mpr (by omega)
  simp only [bnModAdd, bind_apply, bnAdd_val hbc, fold_ok, get_apply, onlyIf_apply, bnCmp_eq,
    Arg.get_val, Nat.mod_eq_of_lt (show a + b < 2 ^ (64 * c) by omega)]
  by_cases hlt : a + b < m
  · rw [Nat.compare_eq_lt.mpr hlt, Nat.mod_eq_of_lt hlt]
    rfl
  · have hcmp : compare (a + b) m ≠ .lt := fun h => hlt (Nat.compare_eq_lt.mp h)
    rw [if_pos hcmp, bnSub_of_le (by omega) (by omega), fold_ok, pure_apply,
      Nat.mod_eq_sub_mod (by omega), Nat.mod_eq_of_lt (by omega)]

theorem bnModSub_eq (J : Junk) (hm : m ≠ 0) (ha : a ≤ m) (hb : b < m) (hc : limbCount 64 m ≤ c) :
    bnModSub J (.val ⟨k, b⟩) (.val ⟨q, m⟩) (⟨c, a⟩ : Num) = .ok () ⟨c, (a + (m - b)) % m⟩ := by
  have hmcap := lt_cap_of_limbCount_le hc
  have hbc : limbCount 64 b ≤ c := limbCount_le_of_lt hb hc
  simp only [bnModSub, bind_apply, get_apply, fold_ok, onlyIf_apply, bnCmp_eq, Arg.get_val]
  by_cases hlt : a < b
  · -- the sum may lose its carry, which the subtraction gives back
    have hval : ((a + m) % 2 ^ (64 * c) + 2 ^ (64 * c) - b) % 2 ^ (64 * c) = a + m - b := by
      rcases Nat.lt_or_ge (a + m) (2 ^ (64 * c)) with h | h
      · rw [Nat.mod_eq_of_lt h, show a + m + 2 ^ (64 * c) - b = a + m - b + 2 ^ (64 * c) by omega,
          Nat.add_mod_right, Nat.mod_eq_of_lt (by omega)]
      · rw [Nat.mod_eq_sub_mod h, Nat.mod_eq_of_lt (show a + m - 2 ^ (64 * c) < 2 ^ (64 * c) by omega),
          show a + m - 2 ^ (64 * c) + 2 ^ (64 * c) - b = a + m - b by omega,
          Nat.mod_eq_of_lt (by omega)]
    rw [if_pos (Nat.compare_eq_lt.mpr hlt), bnAdd_val hc, fold_ok, pure_apply, fold_ok,
      bnSub_val hbc, fold_ok, hval, bnMod_of_lt J (by omega),
      show a + (m - b) = a + m - b by omega, Nat.mod_eq_of_lt (by omega)]
  · have hcmp : compare a b ≠ .lt := fun h => hlt (Nat.compare_eq_lt.mp h)
    have hfit : a - b < m ∨ limbCount 64 (a - b) ≠ c ∨ topClz m ≤ topClz (a - b) := by
      rcases Nat.lt_or_ge (a - b) m with h | h
      · exact Or.inl h
      · exact Or.inr (Or.inr (by rw [show a - b = m by omega]))
    rw [if_neg hcmp, fold_ok, bnSub_of_le (by omega) (by omega), fold_ok, bnMod_eq J hm hfit,
      show a + (m - b) = a - b + m by omega, Nat.add_mod_right]

/-! ## Products -/

theorem bnMult_eq (J : Junk) (ha : a < m) (hb : b < m) (hc : 2 * limbCount 64 m ≤ c) :
    bnMult J (.val ⟨k, b⟩) (⟨c, a⟩ : Num) = .ok () ⟨c, a * b⟩ := by
  have hla := limbCount_mono (w := 64) (by decide) (Nat.le_of_lt ha)
  have hlb := limbCount_mono (w := 64) (by decide) (Nat.le_of_lt hb)
  exact bnMult_val J (by omega)

theorem bnModMult_eq (J : Junk) (ha : a < m) (hb : b < m) (hc : 2 * limbCount 64 m ≤ c) :
    bnModMult J (.val ⟨k, b⟩) (.val ⟨q, m⟩) (⟨c, a⟩ : Num) = .ok () ⟨c, a * b % m⟩ := by
  rw [bnModMult, bind_apply, bnMult_eq (J 0) ha hb hc, fold_ok,
    bnMod_of_lt_square (J 1) (by omega) (Nat.mul_lt_mul_of_lt_of_lt ha hb) hc]

theorem bnMult_self (J : Junk) (ha : a < m) (hc : 2 * limbCount 64 m ≤ c) :
    bnMult J .self (⟨c, a⟩ : Num) = .ok () ⟨c, a * a⟩ := bnMult_eq (k := c) J ha ha hc

theorem bnModSquare_eq (J : Junk) (ha : a < m) (hc : 2 * limbCount 64 m ≤ c) :
    bnModSquare J (.val ⟨q, m⟩) (⟨c, a⟩ : Num) = .ok () ⟨c, a * a % m⟩ := by
  rw [bnModSquare, bnModMult, bind_apply, bnMult_self (J 0) ha hc, fold_ok,
    bnMod_of_lt_square (J 1) (by omega) (Nat.mul_lt_mul_of_lt_of_lt ha ha) hc]

theorem bnModMultDigit_eq (J : Junk) (d : Digit) (ha : a < m) (hc : limbCount 64 m < c) :
    bnModMultDigit J d (.val ⟨q, m⟩) (⟨c, a⟩ : Num) = .ok () ⟨c, a * d.toNat % m⟩ := by
  have hm : m ≠ 0 := by omega
  have hroom := four_mul_le_cap hc
  have hla := limbCount_mono (w := 64) (by decide) (Nat.le_of_lt ha)
  -- The division wants room for its shift: a product that fills all digits is at most 64 bits longer
  -- than the modulus, so it has no fewer leading zeros.
  have hfit : a * d.toNat < m ∨ limbCount 64 (a * d.toNat) ≠ c ∨
      topClz m ≤ topClz (a * d.toNat) := by
    by_cases hfull : limbCount 64 (a * d.toNat) = c
    · refine Or.inr (Or.inr ?_)
      have hmb := (Bn.bitCount_lt_iff m _).mp le_rfl
      have hab : bitCount (a * d.toNat) ≤ bitCount m + 64 := by
        rw [Bn.bitCount_lt_iff, Nat.pow_add]
        exact Nat.mul_lt_mul_of_lt_of_lt (ha.trans hmb) d.isLt
      have := Bn.bitCount_le_limbCount m
      unfold topClz
      omega
    · exact Or.inr (Or.inl hfull)
  -- The small factors have branches of their own.
  have hmult : bnMultDigit (J 0) d (⟨c, a⟩ : Num) = .ok () ⟨c, a * d.toNat⟩ := by
    by_cases h0 : a = 0
    · rw [h0, Nat.zero_mul]
      rfl
    refine (if_neg h0).trans ?_
    by_cases hd0 : d = 0
    · rw [hd0]
      exact if_pos rfl
    refine (if_neg hd0).trans ?_
    by_cases hd1 : d = 1
    · rw [hd1]
      exact (if_pos rfl).trans (by rw [show (1 : Digit).toNat = 1 from rfl, Nat.mul_one])
    refine (if_neg hd1).trans ?_
    by_cases hd2 : d = 2 ∨ d = 3
    · have hlt : a * d.toNat < 2 ^ (64 * c) := by
        rcases hd2 with rfl | rfl
        · rw [show (2 : Digit).toNat = 2 from rfl]
          omega
        · rw [show (3 : Digit).toNat = 3 from rfl]
          omega
      refine (if_pos hd2).trans ?_
      show EStateM.Result.ok () (⟨c, a * d.toNat % 2 ^ (64 * c)⟩ : Num) = _
      rw [Nat.mod_eq_of_lt hlt]
    · exact (if_neg hd2).trans (if_neg (show ¬c ≤ limbCount 64 a by omega))
  rw [bnModMultDigit, bind_apply, hmult, fold_ok, bnMod_eq (J 1) hm hfit]

/-! ## Powers -/

theorem bnAssignDigit_one (hc : c ≠ 0) (h : (1 : Digit) ≠ 0) :
    bnAssignDigit 1 h (⟨c, a⟩ : Num) = .ok () ⟨c, 1⟩ := if_neg hc

theorem pow_step (acc base e : Nat) :
    (if e % 2 = 1 then acc * base % m else acc) * (base * base % m) ^ (e / 2) % m =
      acc * base ^ e % m := by
  have hpow : base ^ e = base ^ (e % 2) * (base * base) ^ (e / 2) := by
    rw [← Nat.pow_two, ← Nat.pow_mul, ← Nat.pow_add, Nat.mod_add_div]
  by_cases hodd : e % 2 = 1
  · rw [if_pos hodd, hpow, hodd, Nat.pow_one, Nat.mul_mod, Nat.mod_mod, ← Nat.pow_mod, ← Nat.mul_mod,
      Nat.mul_assoc]
  · rw [if_neg hodd, hpow, show e % 2 = 0 by omega, Nat.pow_zero, Nat.one_mul, Nat.mul_mod,
      ← Nat.pow_mod, ← Nat.mul_mod]

theorem expDigitLoop_eq (J : Junk) (hc : 2 * limbCount 64 m ≤ c) (fuel e base acc : Nat)
    (he : e < 2 ^ fuel) (hbase : base < m) (hacc : acc < m) :
    expDigitLoop J (.val ⟨q, m⟩) fuel e ⟨c, base⟩ (⟨c, acc⟩ : Num) =
      .ok () ⟨c, acc * base ^ e % m⟩ := by
  induction fuel generalizing e base acc with
  | zero =>
    rw [show e = 0 by simpa using he, expDigitLoop, pure_apply, Nat.pow_zero, Nat.mul_one,
      Nat.mod_eq_of_lt hacc]
  | succ fuel ih =>
    rw [expDigitLoop]
    by_cases he0 : e = 0
    · rw [if_pos he0, pure_apply, he0, Nat.pow_zero, Nat.mul_one, Nat.mod_eq_of_lt hacc]
    · have hhalf : e / 2 < 2 ^ fuel := by
        rw [Nat.pow_succ] at he
        omega
      have hsq := bnModSquare_eq (q := q) (J (2 * fuel + 1)) hbase hc
      rw [bnModSquare] at hsq
      have hm : 0 < m := by omega
      rw [if_neg he0, ← pow_step]
      simp only [bind_apply, onlyIf_apply, get_apply, exec_apply, Arg.get_val, fold_ok]
      by_cases hodd : e % 2 = 1
      · rw [if_pos hodd, if_pos hodd, bnModMult_eq (J (2 * fuel)) hacc hbase hc, fold_ok, hsq,
          fold_ok, fold_ok, ih _ _ _ hhalf (Nat.mod_lt _ hm) (Nat.mod_lt _ hm)]
      · rw [if_neg hodd, if_neg hodd, fold_ok, hsq, fold_ok, fold_ok,
          ih _ _ _ hhalf (Nat.mod_lt _ hm) hacc]

theorem digits_one_of_eq {n : Num} {v : Nat} (hv : v < 2 ^ 64) :
    (digits n = 1 ∧ lowDigit n = BitVec.ofNat 64 v) ↔ n.val = v ∧ v ≠ 0 := by
  rw [digits_eq, lowDigit_eq]
  constructor
  · rintro ⟨h1, hlow⟩
    have hlt := lt_cap_of_limbCount_le (le_of_eq h1)
    have hval := congrArg BitVec.toNat hlow
    rw [BitVec.toNat_ofNat, BitVec.toNat_ofNat, Nat.mod_eq_of_lt (by simpa using hlt),
      Nat.mod_eq_of_lt hv] at hval
    refine ⟨hval, fun h0 => ?_⟩
    rw [hval, h0, limbCount_zero] at h1
    exact absurd h1 (by decide)
  · rintro ⟨rfl, h0⟩
    exact ⟨limbCount_of_lt h0 hv, rfl⟩

theorem bnAssignInit_val (x y : Num) : bnAssignInit (.val x) y = .ok () x := rfl

theorem eq_one_of_digits (h : digits (⟨c, a⟩ : Num) = 1 ∧
    (lowDigit (⟨c, a⟩ : Num) = 0 ∨ lowDigit (⟨c, a⟩ : Num) = 1)) : a = 1 := by
  rcases h.2 with h' | h'
  · exact absurd rfl ((digits_one_of_eq (v := 0) (by decide)).mp ⟨h.1, h'⟩).2
  · exact ((digits_one_of_eq (v := 1) (by decide)).mp ⟨h.1, h'⟩).1

theorem bnModExpDigit_eq (J : Junk) {e : Nat} (he : e < 2 ^ 64) (hm : 1 < m) (ha : a < m)
    (hcm : q ≤ c) (hc : 2 * limbCount 64 m ≤ c) :
    bnModExpDigit J e (.val ⟨q, m⟩) (⟨c, a⟩ : Num) = .ok () ⟨c, a ^ e % m⟩ := by
  have hla := limbCount_mono (w := 64) (by decide) (Nat.le_of_lt ha)
  have hm0 : limbCount 64 m ≠ 0 := fun h => by simp [limbCount_eq_zero.mp h] at hm
  have hroom : ¬(count (⟨c, a⟩ : Num) < count (⟨q, m⟩ : Num) ∨
      count (⟨c, a⟩ : Num) < digits (⟨c, a⟩ : Num) * 2) := by
    rw [digits_eq]
    show ¬(c < q ∨ c < limbCount 64 a * 2)
    omega
  refine (ite_apply_neg hroom).trans ?_
  by_cases h0 : e = 0
  · rw [if_pos h0, bnAssignDigit_one (by omega), h0, Nat.pow_zero, Nat.mod_eq_of_lt hm]
  rw [if_neg h0]
  by_cases h1 : e = 1
  · rw [if_pos h1, pure_apply, h1, Nat.pow_one, Nat.mod_eq_of_lt ha]
  rw [if_neg h1]
  by_cases h2 : e = 2
  · rw [if_pos h2, h2, Nat.pow_two]
    exact bnModSquare_eq (J 0) ha hc
  rw [if_neg h2]
  by_cases h3 : e = 3
  · rw [if_pos h3]
    simp only [bind_apply, exec_apply, bnAssignInit_val, fold_ok, Arg.get_val]
    rw [bnModMult_eq (J 2) ha ha hc, fold_ok, fold_ok,
      bnModMult_eq (J 3) ha (Nat.mod_lt _ (by omega)) hc, Nat.mul_mod_mod, h3, Nat.pow_succ,
      Nat.pow_two, Nat.mul_comm a]
  rw [if_neg h3]
  by_cases hsmall : digits (⟨c, a⟩ : Num) = 1 ∧
      (lowDigit (⟨c, a⟩ : Num) = 0 ∨ lowDigit (⟨c, a⟩ : Num) = 1)
  · rw [if_pos hsmall, pure_apply, eq_one_of_digits hsmall, Nat.one_pow, Nat.mod_eq_of_lt hm]
  · rw [if_neg hsmall]
    simp only [bind_apply, exec_apply, bnAssignInit_val, fold_ok]
    rw [bnAssignDigit_one (by omega), fold_ok, expDigitLoop_eq (J 4) hc 64 e a 1 he ha hm,
      Nat.one_mul]

theorem expLoop_eq (J : Junk) {r e : Nat} (hc : 2 * limbCount 64 m ≤ c) (n i base acc : Nat)
    (he : e < 2 ^ (i + n)) (hbase : base < m) (hacc : acc < m) :
    expLoop J (.val ⟨r, e⟩) (.val ⟨q, m⟩) n i ⟨c, base⟩ (⟨c, acc⟩ : Num) =
      .ok () ⟨c, acc * base ^ (e / 2 ^ i) % m⟩ := by
  induction n generalizing i base acc with
  | zero =>
    rw [Nat.div_eq_of_lt (by simpa using he), expLoop, pure_apply, Nat.pow_zero, Nat.mul_one,
      Nat.mod_eq_of_lt hacc]
  | succ n ih =>
    have hsq := bnModSquare_eq (q := q) (J (2 * i + 1)) hbase hc
    rw [bnModSquare] at hsq
    have hm : 0 < m := by omega
    have hbit : e.testBit i = decide (e / 2 ^ i % 2 = 1) := Nat.testBit_eq_decide_div_mod_eq
    have he' : e < 2 ^ (i + 1 + n) := by rwa [Nat.add_right_comm]
    rw [← pow_step, Nat.div_div_eq_div_mul, ← Nat.pow_succ]
    simp only [expLoop, bind_apply, onlyIf_apply, get_apply, exec_apply, Arg.get_val, fold_ok,
      bnIsBitSet_eq, hbit, decide_eq_true_eq]
    by_cases hodd : e / 2 ^ i % 2 = 1
    · rw [if_pos hodd, if_pos hodd, bnModMult_eq (J (2 * i)) hacc hbase hc, fold_ok, hsq, fold_ok,
        fold_ok, ih _ _ _ he' (Nat.mod_lt _ hm) (Nat.mod_lt _ hm)]
    · rw [if_neg hodd, if_neg hodd, fold_ok, hsq, fold_ok, fold_ok,
        ih _ _ _ he' (Nat.mod_lt _ hm) hacc]

theorem bnModExp_eq (J : Junk) {r e : Nat} (hm : 1 < m) (ha : a < m) (hcm : q ≤ c)
    (hc : 2 * limbCount 64 m ≤ c) :
    bnModExp J (.val ⟨r, e⟩) (.val ⟨q, m⟩) (⟨c, a⟩ : Num) = .ok () ⟨c, a ^ e % m⟩ := by
  have hla := limbCount_mono (w := 64) (by decide) (Nat.le_of_lt ha)
  have hm0 : limbCount 64 m ≠ 0 := fun h => by simp [limbCount_eq_zero.mp h] at hm
  have hone := fun v hv => digits_one_of_eq (n := ⟨r, e⟩) (v := v) hv
  have hroom : ¬c < digits (⟨c, a⟩ : Num) * 2 := by
    rw [digits_eq]
    show ¬c < limbCount 64 a * 2
    omega
  refine (ite_apply_neg (show ¬c < q from not_lt.mpr hcm)).trans ?_
  refine (ite_apply_neg (show ¬(digits (⟨r, e⟩ : Num) = 1 ∧ lowDigit (⟨r, e⟩ : Num) = 0) from
    fun h => ((hone 0 (by decide)).mp h).2 rfl)).trans ?_
  by_cases h1 : digits (⟨r, e⟩ : Num) = 1 ∧ lowDigit (⟨r, e⟩ : Num) = 1
  · have he : e = 1 := ((hone 1 (by decide)).mp h1).1
    refine (ite_apply_pos h1).trans ?_
    rw [pure_apply, he, Nat.pow_one, Nat.mod_eq_of_lt ha]
  refine (ite_apply_neg h1).trans ?_
  by_cases h2 : digits (⟨r, e⟩ : Num) = 1 ∧ lowDigit (⟨r, e⟩ : Num) = 2
  · have he : e = 2 := ((hone 2 (by decide)).mp h2).1
    refine (ite_apply_pos h2).trans ?_
    rw [he, Nat.pow_two]
    exact bnModSquare_eq (J 0) ha hc
  refine (ite_apply_neg h2).trans ((ite_apply_neg hroom).trans ?_)
  by_cases hsmall : digits (⟨c, a⟩ : Num) = 1 ∧
      (lowDigit (⟨c, a⟩ : Num) = 0 ∨ lowDigit (⟨c, a⟩ : Num) = 1)
  · rw [if_pos hsmall, pure_apply, eq_one_of_digits hsmall, Nat.one_pow, Nat.mod_eq_of_lt hm]
  · rw [if_neg hsmall]
    simp only [bind_apply, exec_apply, bnAssignInit_val, fold_ok, get_apply, Arg.get_val,
      bnCalcBits_eq]
    have he := (Bn.bitCount_lt_iff e _).mp le_rfl
    rw [bnAssignDigit_one (by omega), fold_ok,
      expLoop_eq (J 2) hc _ 0 a 1 (by rwa [Nat.zero_add]) ha hm, Nat.one_mul, Nat.pow_zero,
      Nat.div_one]

end BigNum.ByValue

/-!
# The binary inversion

`bn_mod_inv_bin` on an odd modulus: it ends, and what it assigns is the inverse.  Its loop keeps
`x1 * a = u` and `x2 * a = v` modulo `m` and keeps `u` and `v` coprime, so it ends at one.
-/

namespace BigNum.ByValue

open Limbs StateErr BnOps

variable {a c q m : Nat} {σ : Type}

theorem lt_loopFuel {k v : Nat} (hk : k ≤ 8192) (hv : v < 2 ^ k) : v < loopFuel := by
  have hpow : 2 ^ k ≤ loopFuel := by
    unfold loopFuel
    exact Nat.pow_le_pow_right (Nat.succ_pos 1) hk
  exact hv.trans_le hpow

theorem cast_sub_mod {x y : Nat} (hy : y ≤ m) :
    (((x + (m - y)) % m : Nat) : ZMod m) = x - y := by
  rw [ZMod.natCast_mod, Nat.cast_add, Nat.cast_sub hy, ZMod.natCast_self, zero_sub, sub_eq_add_neg]

theorem halfMod_eq (hodd : m % 2 = 1) (hc : limbCount 64 m < c) {x : Nat} (h0 : x ≠ 0)
    (hx : x < m) : ∃ y, halfMod (⟨q, m⟩ : Num) ⟨c, x⟩ = .ok () ⟨c, y⟩ ∧ y < m ∧
      (2 : ZMod m) * y = x := by
  have hroom := four_mul_le_cap hc
  by_cases heven : x % 2 = 0
  · refine ⟨x / 2, ?_, by omega, ?_⟩
    · simp only [halfMod, bind_apply, get_apply, fold_ok, onlyIf_apply, bnIsEven_eq, heven, h0,
        ne_eq, not_false_eq_true, and_self, decide_true, Bool.true_eq_false, if_false,
        bnRShift_one]
    · have : x = 2 * (x / 2) := by omega
      conv_rhs => rw [this]
      push_cast
      rfl
  · refine ⟨(x + m) / 2, ?_, by omega, ?_⟩
    · simp only [halfMod, bind_apply, get_apply, fold_ok, onlyIf_apply, bnIsEven_eq, heven, h0,
        ne_eq, not_false_eq_true, and_false, decide_false, if_true, bnAdd_val (Nat.le_of_lt hc),
        pure_apply, bnRShift_one, Nat.mod_eq_of_lt (show x + m < 2 ^ (64 * c) by omega)]
    · have : x + m = 2 * ((x + m) / 2) := by omega
      have hcast := congrArg (Nat.cast : Nat → ZMod m) this
      push_cast at hcast
      rw [ZMod.natCast_self, add_zero] at hcast
      exact_mod_cast hcast.symm

theorem isUnit_two (hodd : m % 2 = 1) : IsUnit (2 : ZMod m) := by
  have h := (ZMod.unitOfCoprime 2 (Nat.coprime_two_left.mpr (Nat.odd_iff.mpr hodd))).isUnit
  rwa [ZMod.coe_unitOfCoprime] at h

theorem halfMod_inv {x y : Nat} (hodd : m % 2 = 1) (hc : limbCount 64 m < c) (hx : x < m)
    (hy0 : y ≠ 0) (hy : y < m) (heven : y % 2 = 0) (hinv : (x : ZMod m) * a = y) :
    ∃ x', halfMod (⟨q, m⟩ : Num) ⟨c, x⟩ = .ok () ⟨c, x'⟩ ∧ x' < m ∧
      (x' : ZMod m) * a = (y / 2 : Nat) := by
  -- a zero beside `y` would make `y` a multiple of `m`
  have hx0 : x ≠ 0 := by
    rintro rfl
    rw [Nat.cast_zero, zero_mul, eq_comm, ZMod.natCast_eq_zero_iff] at hinv
    exact absurd (Nat.le_of_dvd (Nat.pos_of_ne_zero hy0) hinv) (by omega)
  obtain ⟨x', hrun, hlt, hx'⟩ := halfMod_eq (q := q) hodd hc hx0 hx
  refine ⟨x', hrun, hlt, (isUnit_two hodd).mul_left_cancel ?_⟩
  rw [← mul_assoc, hx', hinv]
  have : y = 2 * (y / 2) := by omega
  conv_lhs => rw [this]
  push_cast
  rfl

/-- What `invHalve` leaves of `u` and of the number beside it. -/
structure Halved (m a u u' x' : Nat) : Prop where
  odd : u' % 2 = 1
  dvd : u' ∣ u
  lt : x' < m
  inv : (x' : ZMod m) * a = u'

theorem invHalve_eq (hodd : m % 2 = 1) (hc : limbCount 64 m < c) {a : Nat} (fuel u x : Nat)
    (s : σ) (hfuel : u < fuel) (hu0 : u ≠ 0) (hum : u ≤ m) (hx : x < m)
    (hinv : (x : ZMod m) * a = u) :
    ∃ u' x', invHalve (⟨q, m⟩ : Num) fuel ⟨c, u⟩ ⟨c, x⟩ s = .ok (⟨c, u'⟩, ⟨c, x'⟩) s ∧
      Halved m a u u' x' := by
  induction fuel generalizing u x with
  | zero => omega
  | succ fuel ih =>
    by_cases heven : u % 2 = 0
    · have hlt : u < m := by omega
      obtain ⟨y, hrun, hym, hinv'⟩ := halfMod_inv (q := q) hodd hc hx hu0 hlt heven hinv
      obtain ⟨u', x', hloop, h⟩ := ih (u / 2) y (by omega) (by omega) (by omega) hym hinv'
      refine ⟨u', x', ?_, h.odd, h.dvd.trans (Nat.div_dvd_of_dvd (by omega)), h.lt, h.inv⟩
      rw [invHalve]
      simp only [bnIsEven_eq, heven, hu0, ne_eq, not_false_eq_true, and_self, decide_true,
        if_true, bind_apply, exec_apply, bnRShift_one, fold_ok, hrun]
      exact hloop
    · refine ⟨u, x, ?_, by omega, dvd_refl u, hx, hinv⟩
      rw [invHalve]
      simp only [bnIsEven_eq, heven, and_false, decide_false, Bool.false_eq_true, if_false,
        pure_apply]

/-- What the loop of `bn_mod_inv_bin` keeps. -/
structure InvState (m a u v x1 x2 : Nat) : Prop where
  u_le : u ≤ m
  v_pos : v ≠ 0
  v_le : v ≤ m
  x1_lt : x1 < m
  x2_lt : x2 < m
  inv1 : (x1 : ZMod m) * a = u
  inv2 : (x2 : ZMod m) * a = v
  coprime : Nat.Coprime u v

theorem sub_mod_of_le {x y : Nat} (hyx : y ≤ x) (hy : y ≤ m) (hlt : x - y < m) :
    (x + (m - y)) % m = x - y := by
  rw [show x + (m - y) = x - y + m by omega, Nat.add_mod_right, Nat.mod_eq_of_lt hlt]

theorem invBinLoop_eq (J : Junk) (hodd : m % 2 = 1) (hc : limbCount 64 m < c) (hm1 : 1 < m)
    (hm : m < 2 ^ 2048)
    {a : Nat} (fuel u v x1 x2 : Nat) (s : σ) (hfuel : u + v < fuel)
    (h : InvState m a u v x1 x2) :
    ∃ r, invBinLoop J (⟨q, m⟩ : Num) fuel ⟨c, u⟩ ⟨c, v⟩ ⟨c, x1⟩ ⟨c, x2⟩ s = .ok ⟨c, r⟩ s ∧
      r < m ∧ (r : ZMod m) * a = 1 := by
  induction fuel generalizing u v x1 x2 with
  | zero => omega
  | succ fuel ih =>
    simp only [invBinLoop, bnIsOne_eq, decide_eq_true_eq]
    by_cases hu1 : u = 1
    · rw [if_pos hu1, pure_apply]
      exact ⟨x1, rfl, h.x1_lt, by rw [h.inv1, hu1, Nat.cast_one]⟩
    rw [if_neg hu1]
    by_cases hv1 : v = 1
    · rw [if_pos hv1, pure_apply]
      exact ⟨x2, rfl, h.x2_lt, by rw [h.inv2, hv1, Nat.cast_one]⟩
    rw [if_neg hv1]
    have hu0 : u ≠ 0 := fun h0 => hv1 (by simpa [h0] using h.coprime)
    -- both are made odd, with the invariant kept on either side
    obtain ⟨u', x1', hrun1, h1⟩ := invHalve_eq (q := q) hodd hc loopFuel u x1 s
      (lt_loopFuel (by decide) (h.u_le.trans_lt hm)) hu0 h.u_le h.x1_lt h.inv1
    obtain ⟨v', x2', hrun2, h2⟩ := invHalve_eq (q := q) hodd hc loopFuel v x2 s
      (lt_loopFuel (by decide) (h.v_le.trans_lt hm)) h.v_pos h.v_le h.x2_lt h.inv2
    have hule := Nat.le_of_dvd (Nat.pos_of_ne_zero hu0) h1.dvd
    have hvle := Nat.le_of_dvd (Nat.pos_of_ne_zero h.v_pos) h2.dvd
    have hum := h.u_le
    have hvm := h.v_le
    have hu'0 : u' ≠ 0 := fun h0 => by simpa [h0] using h1.odd
    have hv'0 : v' ≠ 0 := fun h0 => by simpa [h0] using h2.odd
    have hcop : Nat.Coprime u' v' := (h.coprime.coprime_dvd_left h1.dvd).coprime_dvd_right h2.dvd
    have hm0 : m ≠ 0 := by omega
    have hcm := Nat.le_of_lt hc
    simp only [bind_apply, hrun1, hrun2, fold_ok, StateErr.ite_apply, bnCmp_eq]
    have hx1 := h1.lt
    have hx2 := h2.lt
    have hlt1 := Nat.mod_lt (x1' + (m - x2')) (Nat.pos_of_ne_zero hm0)
    have hlt2 := Nat.mod_lt (x2' + (m - x1')) (Nat.pos_of_ne_zero hm0)
    -- the larger one loses the smaller one, so the sum falls
    by_cases hge : v' ≤ u'
    · have hcmp : compare u' v' ≠ .lt := fun hlt => absurd (Nat.compare_eq_lt.mp hlt) (by omega)
      have hvlt : v' < m := by
        by_contra hvm'
        have : u' = v' := by omega
        rw [this, Nat.coprime_self] at hcop
        omega
      have hnext : InvState m a (u' - v') v' ((x1' + (m - x2')) % m) x2' :=
        { u_le := by omega
          v_pos := hv'0
          v_le := by omega
          x1_lt := hlt1
          x2_lt := hx2
          inv1 := by rw [cast_sub_mod (Nat.le_of_lt hx2), sub_mul, h1.inv, h2.inv, Nat.cast_sub hge]
          inv2 := h2.inv
          coprime := (Nat.coprime_sub_self_left hge).mpr hcop }
      rw [if_pos hcmp]
      simp only [exec_apply]
      rw [bnModSub_eq _ hm0 (by omega) hvlt hcm, fold_ok, fold_ok,
        bnModSub_eq _ hm0 (by omega) hx2 hcm, fold_ok, fold_ok,
        sub_mod_of_le hge (by omega) (by omega)]
      exact ih _ _ _ _ (by omega) hnext
    · have hcmp : ¬ compare u' v' ≠ .lt := fun hne => hne (Nat.compare_eq_lt.mpr (by omega))
      have hle : u' ≤ v' := by omega
      have hnext : InvState m a u' (v' - u') x1' ((x2' + (m - x1')) % m) :=
        { u_le := by omega
          v_pos := by omega
          v_le := by omega
          x1_lt := hx1
          x2_lt := hlt2
          inv1 := h1.inv
          inv2 := by rw [cast_sub_mod (Nat.le_of_lt hx1), sub_mul, h1.inv, h2.inv, Nat.cast_sub hle]
          coprime := (Nat.coprime_sub_self_right hle).mpr hcop }
      rw [if_neg hcmp]
      simp only [exec_apply]
      rw [bnModSub_eq _ hm0 (by omega) (by omega) hcm, fold_ok, fold_ok,
        bnModSub_eq _ hm0 (by omega) hx1 hcm, fold_ok, fold_ok,
        sub_mod_of_le hle (by omega) (by omega)]
      exact ih _ _ _ _ (by omega) hnext

/-! ## The locals of the inversions -/

theorem invArgsBad_eq (ha0 : a ≠ 0) (ha : a < m) :
    invArgsBad (⟨c, a⟩ : Num) ⟨q, m⟩ = false := by
  simp only [invArgsBad, bnIsZero_eq, bnCmp_eq, Nat.compare_eq_lt.mpr ha, ha0,
    show m ≠ 0 by omega, decide_false, Bool.or_false, bne_self_eq_false]

theorem invBits_eq (ha : a < m) :
    invBits (⟨c, a⟩ : Num) ⟨q, m⟩ = (4 + limbCount 64 m) * 64 := by
  have hla := limbCount_mono (w := 64) (by decide) (Nat.le_of_lt ha)
  simp only [invBits, digits_eq, Nat.max_eq_right hla]

theorem bnInit_mul {k : Nat} (h0 : k ≠ 0) (hk : k ≤ 32) (x : Num) :
    bnInit (k * 64) x = .ok () ⟨k, 0⟩ := by
  refine (if_neg (by omega)).trans ?_
  rw [show (k * 64 + 63) / 64 = k by omega]

theorem bnModInvBin_run (J : Junk) (hodd : m % 2 = 1) (hdig : limbCount 64 m ≤ 28)
    (ha0 : a ≠ 0) (ha : a < m) (hcop : Nat.Coprime a m) :
    ∃ r, r < m ∧ (r : ZMod m) * a = 1 ∧
      bnModInvBin J (.val ⟨q, m⟩) (⟨c, a⟩ : Num) =
        bnAssign (.val ⟨4 + limbCount 64 m, r⟩) ⟨c, a⟩ := by
  have hm1 : 1 < m := by omega
  have hm : m < 2 ^ 2048 := (lt_cap_of_limbCount_le hdig).trans_le
    (Nat.pow_le_pow_right (Nat.succ_pos 1) (by omega))
  have hla := limbCount_mono (w := 64) (by decide) (Nat.le_of_lt ha)
  have hstate : InvState m a a m 1 0 :=
    { u_le := Nat.le_of_lt ha
      v_pos := by omega
      v_le := le_rfl
      x1_lt := hm1
      x2_lt := by omega
      inv1 := by rw [Nat.cast_one, one_mul]
      inv2 := by rw [Nat.cast_zero, zero_mul, ZMod.natCast_self]
      coprime := hcop }
  obtain ⟨r, hrun, hr, hinv⟩ := invBinLoop_eq (q := q) (J 4) hodd
    (show limbCount 64 m < 4 + limbCount 64 m by omega) hm1 hm loopFuel a m 1 0 (⟨c, a⟩ : Num)
    (lt_loopFuel (k := 2049) (by decide) (by rw [Nat.pow_succ]; omega)) hstate
  refine ⟨r, hr, hinv, ?_⟩
  have hbad : ¬invArgsBad (⟨c, a⟩ : Num) ⟨q, m⟩ = true := by
    rw [invArgsBad_eq ha0 ha]
    decide
  refine (ite_apply_neg hbad).trans ?_
  simp only [bind_apply, fold_ok, Arg.get_val, invBits_eq ha, exec_apply,
    bnInit_mul (show 4 + limbCount 64 m ≠ 0 by omega) (by omega)]
  rw [bnAssign_val (by omega), fold_ok, fold_ok, bnAssign_val (by omega), fold_ok, fold_ok,
    bnAssignDigit_one (by omega), fold_ok, fold_ok, hrun, fold_ok]

theorem bnModInv_eq (J : Junk) (hodd : m % 2 = 1) (hdig : limbCount 64 m ≤ 28) {a : Nat}
    (ha0 : a ≠ 0) (ha : a < m) (hcop : Nat.Coprime a m) (hc : limbCount 64 m ≤ c) :
    ∃ r, bnModInv J (.val ⟨q, m⟩) (⟨c, a⟩ : Num) = .ok () ⟨c, r⟩ ∧ r < m ∧
      (r : ZMod m) * a = 1 := by
  obtain ⟨r, hr, hinv, hrun⟩ := bnModInvBin_run (c := c) (q := q) J hodd hdig ha0 ha hcop
  refine ⟨r, ?_, hr, hinv⟩
  rw [bnModInv, hrun, bnAssign_val (limbCount_le_of_lt hr hc)]

end BigNum.ByValue
