import Liblcb.BigNum.ModHom
import Liblcb.Lib.Stein

/-!
# Reading numbers by value

What the readers of `Read` return on `Num`, in terms of the value.
-/

namespace BigNum.ByValue

open Limbs StateErr BnOps

theorem sig_def (x : Num) : sig x = limbs 64 (limbCount 64 x.val) x.val := rfl

theorem val_sig (x : Num) : Limbs.val (sig x) = x.val := by
  rw [sig_def, val_limbs_of_lt (lt_pow_limbCount (by decide) _)]

@[simp] theorem digits_eq (x : Num) : digits x = limbCount 64 x.val := by
  rw [digits, sig_def, length_limbs]

@[simp] theorem bnIsZero_eq (x : Num) : bnIsZero x = decide (x.val = 0) := by
  have hlen : (sig x).length = limbCount 64 x.val := digits_eq x
  rw [bnIsZero, Bool.eq_iff_iff, List.isEmpty_iff, ← List.length_eq_zero_iff, hlen,
    limbCount_eq_zero, decide_eq_true_eq]

theorem limbCount_of_lt {v : Nat} (h0 : v ≠ 0) (h : v < 2 ^ 64) : limbCount 64 v = 1 := by
  have hle := (limbCount_le_iff (w := 64) (by decide) v 1).mpr (by simpa using h)
  have hne : limbCount 64 v ≠ 0 := fun h => h0 (limbCount_eq_zero.mp h)
  omega

@[simp] theorem bnIsOne_eq (x : Num) : bnIsOne x = decide (x.val = 1) := by
  rw [bnIsOne, Bool.eq_iff_iff, beq_iff_eq, decide_eq_true_eq]
  constructor
  · intro h
    rw [← val_sig, h]
    rfl
  · intro h
    rw [sig_def, h]
    rfl

theorem lowDigit_eq (x : Num) : lowDigit x = BitVec.ofNat 64 x.val := by
  have h := getD_eq_ofNat (sig x) 0
  rw [val_sig, Nat.mul_zero, Nat.pow_zero, Nat.div_one] at h
  rw [lowDigit, ← h]
  cases sig x <;> rfl

private theorem and_one_eq_zero (d : Digit) : d &&& 1 = 0 ↔ d.toNat % 2 = 0 := by
  rw [← BitVec.toNat_inj, BitVec.toNat_and]
  show d.toNat &&& 1 = 0 ↔ _
  rw [Nat.and_one_is_mod]

@[simp] theorem bnIsOdd_eq (x : Num) : bnIsOdd x = decide (x.val % 2 = 1) := by
  have hlow := lowDigit_eq x
  have hval := val_sig x
  rw [bnIsOdd]
  cases hs : sig x with
  | nil =>
    rw [hs, val_nil] at hval
    simp [← hval]
  | cons d ds =>
    rw [lowDigit, hs, List.headD_cons] at hlow
    have hd := and_one_eq_zero d
    rw [hlow, BitVec.toNat_ofNat] at hd
    rw [Bool.eq_iff_iff]
    simp only [hlow, bne_iff_ne, decide_eq_true_eq, ne_eq, hd]
    omega

@[simp] theorem bnIsEven_eq (x : Num) : bnIsEven x = decide (x.val ≠ 0 ∧ x.val % 2 = 0) := by
  have hlow := lowDigit_eq x
  have hval := val_sig x
  rw [bnIsEven]
  cases hs : sig x with
  | nil =>
    rw [hs, val_nil] at hval
    simp [← hval]
  | cons d ds =>
    have hne : x.val ≠ 0 := by
      intro h0
      rw [sig_def, h0] at hs
      cases hs
    rw [lowDigit, hs, List.headD_cons] at hlow
    have hd := and_one_eq_zero d
    rw [hlow, BitVec.toNat_ofNat] at hd
    rw [Bool.eq_iff_iff]
    simp only [hlow, beq_iff_eq, decide_eq_true_eq, hd]
    omega

@[simp] theorem bnCmp_eq (x y : Num) : bnCmp x y = compare x.val y.val := by
  rw [bnCmp, digits_eq, digits_eq]
  by_cases h : limbCount 64 x.val = limbCount 64 y.val
  · have hlen : (sig x).length = (sig y).length := by
      rw [sig_def, sig_def, length_limbs, length_limbs, h]
    rw [if_neg (not_not.mpr h), bnDigitsCmp_eq hlen, val_sig, val_sig]
  · rw [if_pos h]
    have hmono := @limbCount_mono 64 (by decide)
    rcases Nat.lt_trichotomy x.val y.val with hlt | heq | hgt
    · rw [Nat.compare_eq_lt.mpr hlt, Nat.compare_eq_lt]
      have := hmono (Nat.le_of_lt hlt)
      omega
    · exact absurd (by rw [heq]) h
    · rw [Nat.compare_eq_gt.mpr hgt, Nat.compare_eq_gt]
      have := hmono (Nat.le_of_lt hgt)
      omega

@[simp] theorem bnCalcBits_eq (x : Num) : bnCalcBits x = bitCount x.val := by
  rw [bnCalcBits, digits_eq, bitCount]
  by_cases h0 : x.val = 0
  · rw [if_pos (by rw [h0, limbCount_zero]), if_pos h0]
  · have hL : limbCount 64 x.val ≠ 0 := fun h => h0 (limbCount_eq_zero.mp h)
    rw [if_neg hL, if_neg h0, getD_eq_ofNat, val_sig]
    obtain ⟨k, hk⟩ := Nat.exists_eq_succ_of_ne_zero hL
    rw [hk, Nat.succ_sub_one]
    have hlo : 2 ^ (64 * k) ≤ x.val := (lt_limbCount_iff (w := 64) (by decide) _ _).mp (by omega)
    have hhi : x.val < 2 ^ (64 * (k + 1)) :=
      (limbCount_le_iff (w := 64) (by decide) _ _).mp (by omega)
    rw [pow_succ_mul, Nat.mul_comm] at hhi
    have hd64 : x.val / 2 ^ (64 * k) < 2 ^ 64 := Nat.div_lt_of_lt_mul hhi
    have hd0 : x.val / 2 ^ (64 * k) ≠ 0 := by
      have := Nat.div_pos hlo (Nat.two_pow_pos _)
      omega
    have hne : BitVec.ofNat 64 (x.val / 2 ^ (64 * k)) ≠ 0 := by
      intro h
      have := congrArg BitVec.toNat h
      rw [BitVec.toNat_ofNat, Nat.mod_eq_of_lt hd64] at this
      exact hd0 this
    have hclz := bnDigitClz_spec hne
    rw [BitVec.toNat_ofNat, Nat.mod_eq_of_lt hd64] at hclz
    have hlog : x.val.log2 = (x.val / 2 ^ (64 * k)).log2 + 64 * k := by
      rw [Nat.log2_eq_iff h0]
      have hself := Nat.log2_self_le hd0
      have hlt := @Nat.lt_log2_self (x.val / 2 ^ (64 * k))
      constructor
      · rw [Nat.pow_add]
        exact (Nat.le_div_iff_mul_le (Nat.two_pow_pos _)).mp hself
      · rw [Nat.add_right_comm, Nat.pow_add]
        exact (Nat.div_lt_iff_lt_mul (Nat.two_pow_pos _)).mp hlt
    omega

theorem ctzLoop_spec (ds : List Digit) (h0 : Limbs.val ds ≠ 0) :
    (Limbs.val ds).testBit (ctzLoop ds) = true ∧
      ∀ i < ctzLoop ds, (Limbs.val ds).testBit i = false := by
  induction ds with
  | nil => exact absurd rfl h0
  | cons d ds ih =>
    rw [ctzLoop]
    by_cases hd : d = 0
    · rw [if_pos hd]
      have hval : Limbs.val ds ≠ 0 := by
        intro hv
        rw [val_cons, hv, hd] at h0
        exact h0 rfl
      obtain ⟨hbit, hlow⟩ := ih hval
      constructor
      · rw [testBit_val_cons, if_neg (by omega), Nat.add_sub_cancel_left]
        exact hbit
      · intro i hi
        rw [testBit_val_cons]
        by_cases h64 : i < 64
        · rw [if_pos h64, hd]
          exact BitVec.getLsbD_zero
        · rw [if_neg h64]
          exact hlow _ (by omega)
    · rw [if_neg hd]
      obtain ⟨hlt, hbit, hlow⟩ := bnDigitCtz_spec hd
      constructor
      · rw [testBit_val_cons, if_pos hlt]
        exact hbit
      · intro i hi
        rw [testBit_val_cons, if_pos (by omega)]
        exact hlow i hi

theorem bnCtz_spec {c v : Nat} (h0 : v ≠ 0) :
    ∃ u, u % 2 = 1 ∧ v = u * 2 ^ bnCtz (⟨c, v⟩ : Num) := by
  have hval := val_sig (⟨c, v⟩ : Num)
  obtain ⟨hbit, hlow⟩ := ctzLoop_spec (sig (⟨c, v⟩ : Num)) (by rwa [hval])
  rw [hval] at hbit hlow
  exact Stein.exists_odd hbit hlow

theorem and_shift_ne_zero (d : Digit) {i : Nat} (hi : i < 64) :
    (d &&& ((1 : Digit) <<< i) ≠ 0) ↔ d.getLsbD i = true := by
  rw [getLsbD_and_ne_zero]
  constructor
  · rintro ⟨j, hj, hm⟩
    rw [BitVec.getLsbD_shiftLeft] at hm
    simp only [Bool.and_eq_true, decide_eq_true_eq, Bool.not_eq_true', decide_eq_false_iff_not,
      not_lt] at hm
    have hj0 : j - i = 0 := by
      by_contra hne
      have hone := hm.2
      rw [show (1 : Digit) = 1#64 from rfl, BitVec.getLsbD_one] at hone
      simp [hne] at hone
    rw [show i = j by omega]
    exact hj
  · intro h
    exact ⟨i, h, by simp [hi]⟩

@[simp] theorem bnIsBitSet_eq (x : Num) (bit : Nat) : bnIsBitSet x bit = x.val.testBit bit := by
  rw [bnIsBitSet, digits_eq]
  have hbits := testBit_val (by decide : 0 < 64) (sig x) bit
  rw [val_sig] at hbits
  by_cases h64 : bit < 64
  · rw [if_pos h64, Bool.eq_iff_iff, bne_iff_ne, and_shift_ne_zero _ h64]
    show (BitVec.ofNat 64 x.val).getLsbD bit = true ↔ _
    rw [BitVec.getLsbD_ofNat, decide_eq_true h64, Bool.true_and]
  · rw [if_neg h64]
    by_cases hout : limbCount 64 x.val * 64 ≤ bit
    · have hlt : x.val < 2 ^ bit :=
        (lt_pow_limbCount (w := 64) (by decide) x.val).trans_le
          (Nat.pow_le_pow_right (by decide) (by omega))
      rw [if_pos hout, Nat.testBit_lt_two_pow hlt]
    · rw [if_neg hout, Bool.eq_iff_iff, bne_iff_ne,
        and_shift_ne_zero _ (Nat.mod_lt _ (by decide)), hbits]

end BigNum.ByValue
