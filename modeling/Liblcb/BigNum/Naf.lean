import Liblcb.BigNum.DivBounds
import Liblcb.BigNum.NumMod
import Liblcb.Lib.SignedDigits

/-!
# The non-adjacent form

`bn_calc_naf` recodes a number with windows of 2 to 8 bits.  A negative digit is added back to a
copy that has the capacity of the number, so the last odd numbers below it lose the carry.
-/

namespace BigNum

open Limbs StateErr BnOps SignedDigits

namespace ByValue

variable {c v w : Nat} {σ : Type}

theorem toNat_window (hw : 2 ≤ w) (hw8 : w ≤ 8) (d : Digit) :
    ((d &&& ((1 : Digit) <<< w - 1)).setWidth 8).toNat = d.toNat % 2 ^ w := by
  have hmask : ((1 : Digit) <<< w - 1).toNat = 2 ^ w - 1 := by
    interval_cases w <;> rfl
  rw [BitVec.toNat_setWidth, BitVec.toNat_and, hmask, Nat.and_two_pow_sub_one_eq_mod]
  apply Nat.mod_eq_of_lt
  exact (Nat.mod_lt _ (Nat.two_pow_pos w)).trans_le (Nat.pow_le_pow_right (by decide) hw8)

theorem nafItem_eq (hw : 2 ≤ w) (hw8 : w ≤ 8) (v : Nat) :
    nafItem w (BitVec.ofNat 64 v) = (v : Int).bmod (2 ^ w) := by
  have hwin := toNat_window hw hw8 (BitVec.ofNat 64 v)
  have hmod : v % 2 ^ 64 % 2 ^ w = v % 2 ^ w :=
    Nat.mod_mod_of_dvd v (Nat.pow_dvd_pow 2 (by omega))
  rw [BitVec.toNat_ofNat, hmod] at hwin
  have hlt := Nat.mod_lt v (Nat.two_pow_pos w)
  rw [← Int.emod_bmod, nafItem]
  have hcast : ((v : Int) % ((2 ^ w : Nat) : Int)) = ((v % 2 ^ w : Nat) : Int) := by
    push_cast
    rfl
  rw [hcast, ← hwin]
  rw [← hwin] at hlt
  generalize ((BitVec.ofNat 64 v &&& ((1 : Digit) <<< w - 1)).setWidth 8) = x at hlt
  revert x
  interval_cases w <;> decide +kernel

theorem toNat_ofInt {x : Int} (h0 : 0 ≤ x) (h : x < 2 ^ 64) :
    (BitVec.ofInt 64 x).toNat = x.toNat := by
  rw [BitVec.toNat_ofInt, Int.emod_eq_of_lt h0 (by simpa using h)]

theorem nafTake_eq {d : Int} {r : Nat} (hc : c ≠ 0) (hd0 : d ≠ 0) (hd : |d| < 2 ^ 64)
    (hr : (v : Int) = d + r) (hv : v < 2 ^ (64 * c)) (hroom : r < 2 ^ (64 * c)) :
    ∃ o, (if d < 0 then bnAddDigit (BitVec.ofInt 64 (-d)) else bnSubDigit (BitVec.ofInt 64 d) :
      BnM Num (Option Digit)) ⟨c, v⟩ = .ok o ⟨c, r⟩ := by
  obtain ⟨hlo, hhi⟩ := abs_lt.mp hd
  have hzero : (0 : Digit).toNat = 0 := rfl
  by_cases hneg : d < 0
  · have hn := toNat_ofInt (x := -d) (by omega) (by omega)
    have hn0 : BitVec.ofInt 64 (-d) ≠ 0 := by
      intro h0
      rw [h0] at hn
      omega
    rw [if_pos hneg, bnAddDigit_val hn0 hc, hn, show v + (-d).toNat = r by omega,
      Nat.mod_eq_of_lt hroom]
    exact ⟨_, rfl⟩
  · have hn := toNat_ofInt (x := d) (by omega) (by omega)
    have hn0 : BitVec.ofInt 64 d ≠ 0 := by
      intro h0
      rw [h0] at hn
      omega
    rw [if_neg hneg, bnSubDigit_val hn0 hc, hn,
      show v + 2 ^ (64 * c) - d.toNat = r + 2 ^ (64 * c) by omega, Nat.add_mod_right,
      Nat.mod_eq_of_lt hroom]
    exact ⟨_, rfl⟩

theorem lowDigit_odd_iff : lowDigit (⟨c, v⟩ : Num) &&& 1 ≠ 0 ↔ v % 2 = 1 := by
  have hodd := bnIsOdd_eq (⟨c, v⟩ : Num)
  rw [lowDigit_eq, ← BitVec.toNat_ne_iff_ne, BitVec.toNat_and, BitVec.toNat_ofNat]
  show v % 2 ^ 64 &&& 1 ≠ 0 ↔ _
  rw [Nat.and_one_is_mod]
  omega

theorem nafLoop_zero (w room : Nat) :
    nafLoop w room (⟨c, 0⟩ : Num) = (pure [] : EStateM Err σ (List Int)) := by
  cases room <;> rfl

/-- The loop recodes a number that has room for its first digit. -/
theorem nafLoop_eq (hw : 2 ≤ w) (hw8 : w ≤ 8) (room v : Nat) (s : σ) (hk : 2 * v ≤ 2 ^ room)
    (hv : v < 2 ^ (64 * c)) (hfit : v % 2 = 1 → v + 2 ^ (w - 1) < 2 ^ (64 * c)) :
    ∃ items, nafLoop w room (⟨c, v⟩ : Num) s = .ok items s ∧ IsNaf w v items := by
  induction room generalizing v with
  | zero =>
    have h0 : v = 0 := by
      rw [Nat.pow_zero] at hk
      omega
    refine ⟨[], ?_, h0 ▸ IsNaf.nil w⟩
    rw [h0, nafLoop_zero, pure_apply]
  | succ room ih =>
    by_cases h0 : v = 0
    · refine ⟨[], ?_, h0 ▸ IsNaf.nil w⟩
      rw [h0, nafLoop_zero, pure_apply]
    have hc : c ≠ 0 := by
      rintro rfl
      rw [Nat.mul_zero, Nat.pow_zero] at hv
      omega
    have hzero : ¬bnIsZero (⟨c, v⟩ : Num) = true := by simpa using h0
    -- after one digit the number is below half the capacity
    have hsmall : ∀ v', 2 * v' < 2 ^ (64 * c) →
        v' < 2 ^ (64 * c) ∧ (v' % 2 = 1 → v' + 2 ^ (w - 1) < 2 ^ (64 * c)) := by
      intro v' hv'
      have hwin : 2 ^ (w - 1) ≤ 2 ^ 7 := Nat.pow_le_pow_right (by decide) (by omega)
      have hcap : 2 ^ 64 ≤ 2 ^ (64 * c) := Nat.pow_le_pow_right (by decide) (by omega)
      omega
    rw [Nat.pow_succ] at hk
    rw [nafLoop, if_neg hzero]
    by_cases hodd : v % 2 = 1
    · have hdigit := IsNaf.digit_odd hw hodd
      have hle : (2 : Int) ^ (w - 1) ≤ 2 ^ 7 := pow_le_pow_right₀ (by decide) (by omega)
      obtain ⟨v', hv'⟩ := IsNaf.exists_rest hw v
      have hrest := IsNaf.rest hw hodd hv'
      have hroom : 2 * v' < 2 ^ (64 * c) := by
        have := hfit hodd
        have hb := abs_lt.mp hdigit.2
        zify at this ⊢
        omega
      obtain ⟨hv'cap, hfit'⟩ := hsmall v' hroom
      obtain ⟨items, hrun, hnaf⟩ := ih v' (hrest.2 room (by omega)) hv'cap hfit'
      obtain ⟨o, htake⟩ := nafTake_eq (d := (v : Int).bmod (2 ^ w)) (r := 2 * v') hc
        (by omega) (by omega) (by push_cast; exact hv') hv hroom
      refine ⟨_ :: items, ?_, hnaf.odd hw hodd hv'⟩
      rw [ite_apply_pos (lowDigit_odd_iff.mpr hodd), lowDigit_eq, nafItem_eq hw hw8]
      rw [exec_bind_of_ok htake, exec_bind_of_ok (bnRShift_one _),
        Nat.mul_div_cancel_left _ (by decide), bind_of_ok hrun, pure_apply]
    · obtain ⟨hv', hfit'⟩ := hsmall (v / 2) (by omega)
      obtain ⟨items, hrun, hnaf⟩ := ih (v / 2) (by omega) hv' hfit'
      refine ⟨0 :: items, ?_, hnaf.even h0 (by omega)⟩
      rw [ite_apply_neg (lowDigit_odd_iff.not.mpr hodd), exec_bind_of_ok (bnRShift_one _),
        bind_of_ok hrun, pure_apply]

theorem nafLoop_wraps (hw : 2 ≤ w) (hw8 : w ≤ 8) (room : Nat) (s : σ) (hodd : v % 2 = 1)
    (hv : v < 2 ^ (64 * c)) (hwrap : 2 ^ (64 * c) ≤ v + 2 ^ (w - 1)) :
    ∃ d, d < 0 ∧ nafLoop w (room + 1) (⟨c, v⟩ : Num) s = .ok [d] s := by
  have hc : c ≠ 0 := by
    rintro rfl
    rw [Nat.mul_zero, Nat.pow_zero] at hv
    omega
  have hwin : 2 ^ (w - 1) ≤ 2 ^ 7 := Nat.pow_le_pow_right (by decide) (by omega)
  have hpow : 2 ^ w = 2 * 2 ^ (w - 1) := by
    rw [← Nat.pow_succ']
    congr 1
    omega
  have hdvd : 2 ^ w ∣ 2 ^ (64 * c) := Nat.pow_dvd_pow 2 (by omega)
  obtain ⟨t, ht⟩ : ∃ t, 2 ^ (64 * c) = v + t := ⟨2 ^ (64 * c) - v, by omega⟩
  have ht0 : t ≠ 0 := by omega
  have htle : t ≤ 2 ^ (w - 1) := by omega
  -- The digit that is taken is what the number lacks to the end of its room, so adding it wraps to
  -- zero and the loop ends with this one digit.
  have hitem : (v : Int).bmod (2 ^ w) = -t := by
    rw [Int.bmod_eq_iff (Nat.two_pow_pos w)]
    refine ⟨by rw [hpow]; omega, by omega, ?_⟩
    have hneg : -(t : Int) - v = -((2 ^ (64 * c) : Nat) : Int) := by
      rw [ht]
      push_cast
      ring
    rw [hneg, Int.dvd_neg]
    exact_mod_cast hdvd
  have hn := toNat_ofInt (x := t) (by omega) (by omega)
  have hn0 : BitVec.ofInt 64 (t : Int) ≠ 0 := by
    intro h0
    rw [h0] at hn
    have hzero : (0 : Digit).toNat = 0 := rfl
    omega
  have hzero : ¬bnIsZero (⟨c, v⟩ : Num) = true := by
    simp only [bnIsZero_eq, decide_eq_true_eq]
    omega
  refine ⟨-t, by omega, ?_⟩
  have hadd : (if -(t : Int) < 0 then bnAddDigit (BitVec.ofInt 64 (- -(t : Int)))
      else bnSubDigit (BitVec.ofInt 64 (-(t : Int))) : BnM Num (Option Digit)) ⟨c, v⟩ =
      .ok (some (BitVec.ofNat 64 ((v + t) / 2 ^ (64 * c)))) ⟨c, 0⟩ := by
    rw [if_pos (by omega), Int.neg_neg, bnAddDigit_val hn0 hc, hn, Int.toNat_natCast, ← ht,
      Nat.mod_self]
  rw [nafLoop, if_neg hzero, ite_apply_pos (lowDigit_odd_iff.mpr hodd), lowDigit_eq,
    nafItem_eq hw hw8, hitem, exec_bind_of_ok hadd, exec_bind_of_ok (bnRShift_one _)]
  rw [nafLoop_zero, bind_of_ok (pure_apply _ _), pure_apply]

theorem bnCalcNaf_eq (J : Junk) {size : Nat} (hw : 2 ≤ w) (hw8 : w ≤ 8)
    (hsize : bitCount v < size) (s : σ) :
    bnCalcNaf J (⟨c, v⟩ : Num) w size s = nafLoop w size (⟨c, v⟩ : Num) s := by
  have hbits := bnCalcBits_eq (⟨c, v⟩ : Num)
  rw [bnCalcNaf, if_neg (by omega), hbits, if_neg (show ¬size < bitCount v + 1 by omega),
    if_neg (by omega), exec_bind_of_ok (bnAssignInit_val (⟨c, v⟩ : Num) _)]

end ByValue

namespace Bn

variable {w size : Nat}

/-- What `bn_calc_naf` writes when it returns 0 is a width-`w` recoding of the number. -/
def NafExact (J : Junk) (w size : Nat) (b : Bn) : Prop :=
  ∀ items s, (bnCalcNaf J b w size : EStateM Err Unit (List Int)) () = .ok items s →
    SignedDigits.value (digitsOf items) items.length = b.value ∧
      items.length ≤ bitCount b.value + 1 ∧
      (∀ d ∈ items, d ≠ 0 → d % 2 = 1 ∧ |d| < 2 ^ (w - 1)) ∧ Sparse w (digitsOf items)

theorem bnCalcNaf_abs (J : Junk) {b : Bn} (hb : b.WF) (w size : Nat) :
    (bnCalcNaf J b w size : EStateM Err Unit (List Int)) () = bnCalcNaf J b.abs w size () := by
  have hbn := bnCalcNaf_hom bnHom (id : Unit → Unit) J ⟨b, hb⟩ w size ()
  have habs := bnCalcNaf_hom absHom (id : Unit → Unit) J ⟨b, hb⟩ w size ()
  exact hbn.trans habs.symm

/-- It is one unless the number is odd and so close to the capacity that its first digit is added
back over it. -/
theorem nafExact_iff (J : Junk) (hw : 2 ≤ w) (hw8 : w ≤ 8) {b : Bn} (hb : b.WF) :
    NafExact J w size b ↔
      size ≤ bitCount b.value ∨ b.value % 2 = 0 ∨
        b.value < 2 ^ (64 * b.count) - 2 ^ (w - 1) := by
  have hcap := hb.value_lt_cap
  unfold NafExact
  rw [bnCalcNaf_abs J hb, show b.abs = ⟨b.count, b.value⟩ from rfl]
  by_cases hsize : size ≤ bitCount b.value
  · refine iff_of_true ?_ (Or.inl hsize)
    intro items s h
    have hbits := ByValue.bnCalcBits_eq (⟨b.count, b.value⟩ : Num)
    rw [bnCalcNaf, if_neg (by omega), hbits,
      if_pos (show size < bitCount b.value + 1 by omega)] at h
    cases h
  rw [ByValue.bnCalcNaf_eq J hw hw8 (not_le.mp hsize)]
  have hbits := (Bn.bitCount_lt_iff b.value _).mp le_rfl
  have hk : 2 * b.value ≤ 2 ^ size := by
    have hmono : 2 ^ (bitCount b.value + 1) ≤ 2 ^ size :=
      Nat.pow_le_pow_right (by decide) (by omega)
    rw [Nat.pow_succ] at hmono
    omega
  constructor
  · intro h
    by_contra hnot
    obtain ⟨size, rfl⟩ : ∃ n, size = n + 1 := ⟨size - 1, by omega⟩
    obtain ⟨d, hneg, hrun⟩ := ByValue.nafLoop_wraps hw hw8 size () (v := b.value) (by omega) hcap
      (by omega)
    have hval := (h _ _ hrun).1
    rw [value_cons, List.length_nil, value_zero] at hval
    omega
  · intro h
    obtain ⟨items, hrun, hnaf⟩ := ByValue.nafLoop_eq hw hw8 size b.value () hk hcap (by omega)
    intro items' s hrun'
    rw [hrun] at hrun'
    cases hrun'
    refine ⟨hnaf.value, hnaf.length_le _ ?_, hnaf.digit, hnaf.sparse⟩
    rw [Nat.pow_succ]
    omega

/-- 7 = 8 - 1. -/
theorem nafExact_seven : NafExact blank 2 8 (oneDigit 1 7) :=
  (nafExact_iff blank (by decide) (by decide) (oneDigit_wf (by decide) (by decide)
    (by decide))).mpr (Or.inr (Or.inr (by decide)))

/-- The largest number of one digit is recoded as -1. -/
theorem not_forall_nafExact :
    ¬ ∀ (J : Junk) (w size : Nat) (b : Bn), 2 ≤ w → w ≤ 8 → b.WF → NafExact J w size b := by
  intro h
  have hmax : (oneDigit 1 maxDigit).WF := oneDigit_wf (by decide) (by decide) (by decide)
  have hval : (oneDigit 1 maxDigit).value = 2 ^ 64 - 1 := by decide
  have hrun := bnCalcNaf_abs blank hmax 2 65
  rw [show (oneDigit 1 maxDigit).abs = ⟨1, 2 ^ 64 - 1⟩ by rw [← hval]; rfl] at hrun
  obtain ⟨d, hneg, hloop⟩ := ByValue.nafLoop_wraps (c := 1) (v := 2 ^ 64 - 1) (w := 2) le_rfl
    (by decide) 64 () (by decide) (by decide) (by decide)
  rw [ByValue.bnCalcNaf_eq blank le_rfl (by decide) (by decide), hloop] at hrun
  have hsum := (h blank 2 65 _ le_rfl (by decide) hmax _ _ hrun).1
  rw [value_cons, List.length_nil, value_zero, hval] at hsum
  omega

end Bn

end BigNum
