import Liblcb.BigNum.RefineOps

/-!
# Refinement of `bn_div`

The division underestimates each quotient digit by dividing the top two digits of the running
remainder by the top digit of the divisor plus one, and corrects the estimate upwards.  The
invariant of the rounds is that the part of the remainder above the digit to come is below the
divisor.
-/

namespace BigNum

open Limbs StateErr

namespace Bn

/-- `num[j .. stop)`. -/
def slice (num : List Digit) (j stop : Nat) : List Digit := (num.drop j).take (stop - j)

theorem length_slice {num : List Digit} {j stop : Nat} (hs : stop ≤ num.length) :
    (slice num j stop).length = stop - j := by
  rw [slice, List.length_take, List.length_drop]
  omega

theorem val_take_slice {num : List Digit} {j stop : Nat} (hj : j ≤ stop) (hs : stop ≤ num.length) :
    Limbs.val (num.take stop) =
      Limbs.val (num.take j) + 2 ^ (64 * j) * Limbs.val (slice num j stop) := by
  rw [val_take_drop j (num.take stop) (by rw [List.length_take]; omega), List.take_take,
    Nat.min_eq_left hj, List.drop_take, slice]

theorem onSlice_spec {f : List Digit → List Digit} {num : List Digit} {j stop : Nat}
    (hj : j ≤ stop) (hs : stop ≤ num.length)
    (hf : (f (slice num j stop)).length = stop - j) :
    (onSlice f num j stop).length = num.length ∧
    (onSlice f num j stop).take j = num.take j ∧
    slice (onSlice f num j stop) j stop = f (slice num j stop) ∧
    (onSlice f num j stop).drop stop = num.drop stop := by
  have htake : (num.take j).length = j := by
    rw [List.length_take]
    omega
  rw [onSlice, ← slice, Nat.max_eq_right hj]
  refine ⟨?_, ?_, ?_, ?_⟩
  · rw [List.length_append, List.length_append, htake, hf, List.length_drop]
    omega
  · rw [List.append_assoc, List.take_append_of_le_length (by omega),
      List.take_of_length_le (by omega)]
  · rw [slice, List.append_assoc, List.drop_append, List.drop_of_length_le (by omega), htake,
      Nat.sub_self, List.drop_zero, List.nil_append, List.take_append_of_le_length (by omega),
      List.take_of_length_le (by omega)]
  · rw [List.append_assoc, List.drop_append, List.drop_of_length_le (by omega), htake,
      List.nil_append, List.drop_append, List.drop_of_length_le (by omega), hf, Nat.sub_self,
      List.drop_zero, List.nil_append]

/-- The running remainder of `bn_div`: an array whose digits from `nnDigits` up to the capacity are
zero. -/
structure DivState (nnCount nnDigits : Nat) (num : List Digit) : Prop where
  length : num.length = 32
  digits_le : nnDigits ≤ nnCount
  count_le : nnCount ≤ 32
  high : ∀ i, nnDigits ≤ i → i < nnCount → num.getD i 0 = 0

namespace DivState

variable {nnCount nnDigits : Nat} {num : List Digit}

theorem getD_eq (h : DivState nnCount nnDigits num) {j i : Nat} (hi : j + i < nnCount) :
    num.getD (j + i) 0 =
      BitVec.ofNat 64 (Limbs.val (slice num j nnDigits) / 2 ^ (64 * i)) := by
  rw [← getD_eq_ofNat]
  by_cases hlt : j + i < nnDigits
  · rw [slice, List.getD_eq_getElem?_getD, List.getD_eq_getElem?_getD, List.getElem?_take,
      if_pos (by omega), List.getElem?_drop]
  · rw [h.high (j + i) (by omega) hi, List.getD_eq_default]
    rw [length_slice (by have := h.length; have := h.digits_le; have := h.count_le; omega)]
    omega

theorem onSlice (h : DivState nnCount nnDigits num) {f : List Digit → List Digit} {j : Nat}
    (hj : j ≤ nnDigits) (hf : (f (slice num j nnDigits)).length = nnDigits - j) :
    DivState nnCount nnDigits (Bn.onSlice f num j nnDigits) := by
  have hs : nnDigits ≤ num.length := by
    rw [h.length]
    exact h.digits_le.trans h.count_le
  rcases onSlice_spec hj hs hf with ⟨hlen, -, -, hdrop⟩
  refine ⟨hlen.trans h.length, h.digits_le, h.count_le, ?_⟩
  intro i hi hic
  have hsame : ∀ l : List Digit, l.getD i 0 = (l.drop nnDigits).getD (i - nnDigits) 0 := by
    intro l
    rw [List.getD_eq_getElem?_getD, List.getD_eq_getElem?_getD, List.getElem?_drop,
      Nat.add_sub_cancel' hi]
  rw [hsame, hdrop, ← hsame]
  exact h.high i hi hic

end DivState

/-! ## One quotient digit -/

section Round

variable {nnCount nnDigits : Nat} {dd : List Digit} {j : Nat}

/-- The correction loop ends with the exact quotient digit and the exact remainder. -/
theorem divCorrect_spec (hdd : 0 < Limbs.val dd) (hj : j + dd.length ≤ nnDigits) (fuel : Nat)
    (ai : Digit) {num : List Digit} (h : DivState nnCount nnDigits num)
    (hW : Limbs.val (slice num j nnDigits) < Limbs.val dd * 2 ^ 64)
    (hfuel : Limbs.val (slice num j nnDigits) / Limbs.val dd < fuel)
    (hai : ai.toNat + Limbs.val (slice num j nnDigits) / Limbs.val dd < 2 ^ 64) :
    ∃ ai' num', divCorrect nnCount nnDigits dd j fuel ai num = .ok (ai', num') ∧
      DivState nnCount nnDigits num' ∧ num'.take j = num.take j ∧
      ai'.toNat = ai.toNat + Limbs.val (slice num j nnDigits) / Limbs.val dd ∧
      Limbs.val (slice num' j nnDigits) = Limbs.val (slice num j nnDigits) % Limbs.val dd := by
  induction fuel generalizing ai num with
  | zero => exact absurd hfuel (Nat.not_lt_zero _)
  | succ fuel ih =>
    have hs : nnDigits ≤ num.length := by
      rw [h.length]
      exact h.digits_le.trans h.count_le
    have hslen := length_slice (j := j) hs
    have hddlt := val_lt dd
    -- the two tests of the loop say that the window is at least the divisor
    have hcond : ((j + dd.length < nnCount ∧ num.getD (j + dd.length) 0 ≠ 0) ∨
        bnDigitsCmp ((num.drop j).take dd.length) dd ≠ .lt) ↔
        Limbs.val dd ≤ Limbs.val (slice num j nnDigits) := by
      have hWlt := val_lt (slice num j nnDigits)
      rw [hslen] at hWlt
      have hlow : (num.drop j).take dd.length = (slice num j nnDigits).take dd.length := by
        rw [slice, List.take_take, Nat.min_eq_left (by omega)]
      have hcmp : bnDigitsCmp ((num.drop j).take dd.length) dd ≠ .lt ↔
          Limbs.val dd ≤ Limbs.val (slice num j nnDigits) % 2 ^ (64 * dd.length) := by
        rw [hlow, bnDigitsCmp_eq (by rw [List.length_take]; omega), val_take, Ne,
          Nat.compare_eq_lt, Nat.not_lt]
      have hdm := Nat.mod_add_div (Limbs.val (slice num j nnDigits)) (2 ^ (64 * dd.length))
      by_cases hcap : j + dd.length < nnCount
      · have hsmall : Limbs.val (slice num j nnDigits) / 2 ^ (64 * dd.length) < 2 ^ 64 := by
          rw [Nat.div_lt_iff_lt_mul (Nat.two_pow_pos _), Nat.mul_comm]
          exact hW.trans_le (Nat.mul_le_mul_right _ hddlt.le)
        have hhi : num.getD (j + dd.length) 0 ≠ 0 ↔
            Limbs.val (slice num j nnDigits) / 2 ^ (64 * dd.length) ≠ 0 := by
          rw [h.getD_eq hcap, Ne, Ne, ← BitVec.toNat_inj, BitVec.toNat_ofNat,
            Nat.mod_eq_of_lt hsmall]
          rfl
        rw [hcmp, hhi]
        constructor
        · rintro (⟨-, hne⟩ | hle)
          · have := Nat.le_mul_of_pos_right (2 ^ (64 * dd.length)) (Nat.pos_of_ne_zero hne)
            omega
          · exact hle.trans (Nat.mod_le _ _)
        · intro hle
          by_cases hne : Limbs.val (slice num j nnDigits) / 2 ^ (64 * dd.length) = 0
          · right
            rw [hne] at hdm
            omega
          · exact Or.inl ⟨hcap, hne⟩
      · have hfull : nnDigits - j = dd.length := by
          have := h.digits_le
          omega
        rw [hfull] at hWlt
        rw [hcmp, Nat.mod_eq_of_lt hWlt]
        constructor
        · rintro (⟨hlt, -⟩ | hle)
          · exact absurd hlt hcap
          · exact hle
        · exact Or.inr
    rw [divCorrect]
    by_cases hge : Limbs.val dd ≤ Limbs.val (slice num j nnDigits)
    · rw [if_pos (hcond.mpr hge)]
      rcases bnDigitsSubInt_val (a := slice num j nnDigits) (b := dd) (by omega)
        with ⟨hl, hv⟩
      have hf : (bnDigitsSubInt (slice num j nnDigits) dd).1.length = nnDigits - j :=
        hl.trans hslen
      rcases onSlice_spec (f := fun a => (bnDigitsSubInt a dd).1) (by omega : j ≤ nnDigits) hs hf
        with ⟨-, htake, hsl, -⟩
      have hst := h.onSlice (f := fun a => (bnDigitsSubInt a dd).1) (by omega : j ≤ nnDigits) hf
      have hnew : Limbs.val (slice (Bn.onSlice (fun a => (bnDigitsSubInt a dd).1) num j nnDigits)
          j nnDigits) = Limbs.val (slice num j nnDigits) - Limbs.val dd := by
        rw [hsl]
        have hlt := val_lt (bnDigitsSubInt (slice num j nnDigits) dd).1
        rw [hl] at hlt
        have hc : (bnDigitsSubInt (slice num j nnDigits) dd).2.toNat = 0 := by
          by_contra hne
          have := Nat.le_mul_of_pos_right (2 ^ (64 * (slice num j nnDigits).length))
            (Nat.pos_of_ne_zero hne)
          omega
        rw [hc] at hv
        omega
      have hdiv : Limbs.val (slice num j nnDigits) / Limbs.val dd =
          (Limbs.val (slice num j nnDigits) - Limbs.val dd) / Limbs.val dd + 1 :=
        Nat.div_eq_sub_div hdd hge
      have hqpos := Nat.div_pos hge hdd
      have hai1 : (ai + 1).toNat = ai.toNat + 1 := by
        rw [BitVec.toNat_add, show (1 : Digit).toNat = 1 from rfl, Nat.mod_eq_of_lt (by omega)]
      rcases ih (ai + 1) hst (by rw [hnew]; omega) (by rw [hnew]; omega)
        (by rw [hnew, hai1]; omega) with ⟨ai', num', hrun, hst', htake', hq, hr⟩
      refine ⟨ai', num', hrun, hst', htake'.trans htake, ?_, ?_⟩
      · rw [hq, hnew, hai1, hdiv]
        omega
      · rw [hr, hnew]
        exact (Nat.mod_eq_sub_mod hge).symm
    · rw [if_neg (fun hc => hge (hcond.mp hc))]
      refine ⟨ai, num, rfl, h, rfl, ?_, ?_⟩
      · rw [Nat.div_eq_of_lt (by omega), Nat.add_zero]
      · rw [Nat.mod_eq_of_lt (by omega)]

/-- The estimate of a quotient digit never exceeds it. -/
theorem divEstimate_spec {t : Digit} (hm : dd ≠ [])
    (ht : t.toNat = Limbs.val dd / 2 ^ (64 * (dd.length - 1)))
    (hj : j + dd.length ≤ nnDigits) {num : List Digit} (h : DivState nnCount nnDigits num)
    (hW : Limbs.val (slice num j nnDigits) < Limbs.val dd * 2 ^ 64) :
    ∃ ai, divEstimate nnCount dd.length t j num = .ok ai ∧
      ai.toNat * Limbs.val dd ≤ Limbs.val (slice num j nnDigits) := by
  have hlen : 0 < dd.length := List.length_pos_iff.mpr hm
  have hdc := h.digits_le
  have hddlt := val_lt dd
  generalize hWv : Limbs.val (slice num j nnDigits) = W at hW ⊢
  generalize hX : 2 ^ (64 * (dd.length - 1)) = X at ht
  have hXpos : 0 < X := hX ▸ Nat.two_pow_pos _
  have hBm : 2 ^ (64 * dd.length) = 2 ^ 64 * X := by
    rw [← hX, ← pow_succ_mul, Nat.sub_add_cancel hlen]
  have hlt : Limbs.val dd < (t.toNat + 1) * X := by
    rw [ht, Nat.mul_comm]
    exact Nat.lt_mul_div_succ _ hXpos
  -- a quotient by `t + 1` underestimates the quotient by the divisor
  have hunder : W / X / (t.toNat + 1) * Limbs.val dd ≤ W := by
    calc W / X / (t.toNat + 1) * Limbs.val dd ≤ W / X / (t.toNat + 1) * ((t.toNat + 1) * X) :=
          Nat.mul_le_mul_left _ hlt.le
      _ = W / X / (t.toNat + 1) * (t.toNat + 1) * X := by rw [Nat.mul_assoc]
      _ ≤ W / X * X := Nat.mul_le_mul_right _ (Nat.div_mul_le_self _ _)
      _ ≤ W := Nat.div_mul_le_self _ _
  have hddpos : 0 < Limbs.val dd := by
    by_contra h0
    rw [show Limbs.val dd = 0 from by omega] at hW
    omega
  have hqlt : W / X / (t.toNat + 1) < 2 ^ 64 := by
    have := hunder.trans_lt hW
    rw [Nat.mul_comm] at this
    exact Nat.lt_of_mul_lt_mul_left this
  have hlo : num.getD (j + dd.length - 1) 0 = BitVec.ofNat 64 (W / X) := by
    rw [Nat.add_sub_assoc hlen, h.getD_eq (by omega), hWv, hX]
  have htlt := t.isLt
  have hsucc : t ≠ maxDigit → (t + 1).toNat = t.toNat + 1 := by
    intro hne
    have hne' : t.toNat ≠ 2 ^ 64 - 1 := fun h' => hne (BitVec.eq_of_toNat_eq h')
    rw [BitVec.toNat_add, show (1 : Digit).toNat = 1 from rfl, Nat.mod_eq_of_lt (by omega)]
  rw [divEstimate]
  by_cases hcap : nnCount = j + dd.length
  · rw [if_pos hcap]
    refine ⟨_, rfl, ?_⟩
    split
    · rw [show (0 : Digit).toNat = 0 from rfl, Nat.zero_mul]
      exact Nat.zero_le _
    · rename_i hne
      have hWlt : W < 2 ^ (64 * dd.length) := by
        rw [← hWv]
        refine (val_lt _).trans_le (Nat.pow_le_pow_right (by decide) (Nat.mul_le_mul_left _ ?_))
        rw [slice, List.length_take]
        omega
      have hdigit : W / X < 2 ^ 64 := by
        rw [Nat.div_lt_iff_lt_mul hXpos, ← hBm]
        exact hWlt
      rw [hlo, BitVec.toNat_udiv, BitVec.toNat_ofNat, Nat.mod_eq_of_lt hdigit, hsucc hne]
      exact hunder
  · have hlt' : j + dd.length < nnCount := by omega
    have hhi : num.getD (j + dd.length) 0 = BitVec.ofNat 64 (W / 2 ^ (64 * dd.length)) := by
      rw [h.getD_eq hlt', hWv]
    have hhilt : W / 2 ^ (64 * dd.length) < 2 ^ 64 := by
      rw [Nat.div_lt_iff_lt_mul (Nat.two_pow_pos _), Nat.mul_comm]
      exact hW.trans_le (Nat.mul_le_mul_right _ hddlt.le)
    rw [if_neg hcap]
    by_cases hmax : t = maxDigit
    · rw [if_pos hmax, hhi]
      refine ⟨_, rfl, ?_⟩
      rw [BitVec.toNat_ofNat, Nat.mod_eq_of_lt hhilt]
      exact (Nat.mul_le_mul_left _ hddlt.le).trans (Nat.div_mul_le_self _ _)
    · rw [if_neg hmax]
      have hne : t + 1 ≠ 0 := by
        intro h0
        have := hsucc hmax
        rw [h0] at this
        simp at this
      rcases bnDigitDivShort_ok (num.getD (j + dd.length - 1) 0)
        (num.getD (j + dd.length) 0) hne with ⟨q, hq, hqv⟩
      refine ⟨q, hq, ?_⟩
      have htwo : (W / X) % 2 ^ 64 + 2 ^ 64 * (W / 2 ^ (64 * dd.length)) = W / X := by
        rw [hBm, Nat.mul_comm (2 ^ 64) X, ← Nat.div_div_eq_div_mul]
        exact Nat.mod_add_div _ _
      rw [hqv, hlo, hhi, hsucc hmax, BitVec.toNat_ofNat, BitVec.toNat_ofNat,
        Nat.mod_eq_of_lt hhilt, htwo, Nat.mod_eq_of_lt hqlt]
      exact hunder

/-- A round of `bn_div` divides the window exactly. -/
theorem divStep_spec {t : Digit} (hm : dd ≠ []) (hdd : 0 < Limbs.val dd)
    (ht : t.toNat = Limbs.val dd / 2 ^ (64 * (dd.length - 1)))
    (hj : j + dd.length ≤ nnDigits) {num : List Digit} (h : DivState nnCount nnDigits num)
    (hW : Limbs.val (slice num j nnDigits) < Limbs.val dd * 2 ^ 64) :
    ∃ ai num', divStep nnCount nnDigits dd t j num = .ok (ai, num') ∧
      DivState nnCount nnDigits num' ∧ num'.take j = num.take j ∧
      ai.toNat = Limbs.val (slice num j nnDigits) / Limbs.val dd ∧
      Limbs.val (slice num' j nnDigits) = Limbs.val (slice num j nnDigits) % Limbs.val dd := by
  rcases divEstimate_spec hm ht hj h hW with ⟨q, hq, hle⟩
  have hs : nnDigits ≤ num.length := by
    rw [h.length]
    exact h.digits_le.trans h.count_le
  have hslen := length_slice (j := j) hs
  have hWdiv : Limbs.val (slice num j nnDigits) / Limbs.val dd < 2 ^ 64 := by
    rw [Nat.div_lt_iff_lt_mul hdd, Nat.mul_comm]
    exact hW
  -- what is left of the window after the estimate is taken off
  have hsub : ∃ num1, num1 = (if q ≠ 0 then
        Bn.onSlice (fun a => (bnDigitsSubDigitMult a dd q).1) num j nnDigits else num) ∧
      DivState nnCount nnDigits num1 ∧ num1.take j = num.take j ∧
      Limbs.val (slice num1 j nnDigits) =
        Limbs.val (slice num j nnDigits) - q.toNat * Limbs.val dd := by
    by_cases hq0 : q = 0
    · refine ⟨num, by rw [if_neg (not_not.mpr hq0)], h, rfl, ?_⟩
      rw [hq0, show (0 : Digit).toNat = 0 from rfl, Nat.zero_mul, Nat.sub_zero]
    · refine ⟨_, by rw [if_pos hq0], ?_⟩
      rcases bnDigitsSubDigitMult_val (a := slice num j nnDigits) (b := dd) q (by omega)
        with ⟨hl, hv⟩
      have hf : (bnDigitsSubDigitMult (slice num j nnDigits) dd q).1.length = nnDigits - j :=
        hl.trans hslen
      rcases onSlice_spec (f := fun a => (bnDigitsSubDigitMult a dd q).1)
        (by omega : j ≤ nnDigits) hs hf with ⟨-, htake, hsl, -⟩
      refine ⟨h.onSlice (f := fun a => (bnDigitsSubDigitMult a dd q).1) (by omega) hf, htake, ?_⟩
      rw [hsl]
      have hlt := val_lt (bnDigitsSubDigitMult (slice num j nnDigits) dd q).1
      rw [hl] at hlt
      have hc : (bnDigitsSubDigitMult (slice num j nnDigits) dd q).2.toNat = 0 := by
        by_contra hne
        have := Nat.le_mul_of_pos_right (2 ^ (64 * (slice num j nnDigits).length))
          (Nat.pos_of_ne_zero hne)
        omega
      rw [hc] at hv
      omega
  rcases hsub with ⟨num1, hnum1, hst1, htake1, hval1⟩
  have hdiv : Limbs.val (slice num1 j nnDigits) / Limbs.val dd =
      Limbs.val (slice num j nnDigits) / Limbs.val dd - q.toNat := by
    rw [hval1, Nat.mul_comm q.toNat, Nat.sub_mul_div]
  have hqle : q.toNat ≤ Limbs.val (slice num j nnDigits) / Limbs.val dd :=
    (Nat.le_div_iff_mul_le hdd).mpr hle
  rcases divCorrect_spec hdd hj (2 ^ 64) q hst1
    ((by rw [hval1]; exact Nat.sub_le _ _ : _ ≤ _).trans_lt hW)
    (by rw [hdiv]; omega) (by rw [hdiv]; omega) with ⟨ai, num', hrun, hst', htake', hai, hr⟩
  refine ⟨ai, num', ?_, hst', htake'.trans htake1, ?_, ?_⟩
  · rw [divStep, hq]
    show divCorrect nnCount nnDigits dd j (2 ^ 64) q _ = _
    rw [← hnum1, hrun]
  · rw [hai, hdiv]
    omega
  · rw [hr, hval1, Nat.mul_comm q.toNat, Nat.sub_mul_mod (by rw [Nat.mul_comm]; exact hle)]

/-- The rounds of `bn_div` divide the running remainder. -/
theorem divLoop_spec {t : Digit} (hm : dd ≠ []) (hdd : 0 < Limbs.val dd)
    (ht : t.toNat = Limbs.val dd / 2 ^ (64 * (dd.length - 1))) (k : Nat) (q : List Digit)
    (hk : k + dd.length ≤ nnDigits + 1) {num : List Digit} (h : DivState nnCount nnDigits num)
    (hR : Limbs.val (num.take nnDigits) < Limbs.val dd * 2 ^ (64 * k)) :
    ∃ q' num', divLoop nnCount nnDigits dd t k q num = .ok (q', num') ∧
      DivState nnCount nnDigits num' ∧ q'.length = k + q.length ∧
      Limbs.val q' = Limbs.val (num.take nnDigits) / Limbs.val dd + 2 ^ (64 * k) * Limbs.val q ∧
      Limbs.val (num'.take nnDigits) = Limbs.val (num.take nnDigits) % Limbs.val dd := by
  induction k generalizing q num with
  | zero =>
    rw [Nat.mul_zero, Nat.pow_zero, Nat.mul_one] at hR
    refine ⟨q, num, rfl, h, by omega, ?_, ?_⟩
    · rw [Nat.div_eq_of_lt hR, Nat.mul_zero, Nat.pow_zero, Nat.one_mul, Nat.zero_add]
    · rw [Nat.mod_eq_of_lt hR]
  | succ j ih =>
    have hs : nnDigits ≤ num.length := by
      rw [h.length]
      exact h.digits_le.trans h.count_le
    have hlen : 0 < dd.length := List.length_pos_iff.mpr hm
    have hj : j + dd.length ≤ nnDigits := by omega
    have hsplit := val_take_slice (j := j) (by omega) hs
    generalize hL : Limbs.val (num.take j) = L at hsplit
    have hLlt : L < 2 ^ (64 * j) := by
      rw [← hL]
      refine (val_lt _).trans_le (Nat.pow_le_pow_right (by decide) (Nat.mul_le_mul_left _ ?_))
      exact List.length_take_le _ _
    have hW : Limbs.val (slice num j nnDigits) < Limbs.val dd * 2 ^ 64 := by
      rw [hsplit, pow_succ_mul, ← Nat.mul_assoc] at hR
      have : 2 ^ (64 * j) * Limbs.val (slice num j nnDigits) <
          2 ^ (64 * j) * (Limbs.val dd * 2 ^ 64) := by
        rw [Nat.mul_comm (2 ^ (64 * j)) (Limbs.val dd * 2 ^ 64)]
        omega
      exact Nat.lt_of_mul_lt_mul_left this
    rcases divStep_spec hm hdd ht hj h hW with ⟨ai, num1, hrun, hst, htake, hai, hr⟩
    have hs1 : nnDigits ≤ num1.length := by
      rw [hst.length]
      exact hst.digits_le.trans hst.count_le
    have hsplit1 := val_take_slice (j := j) (by omega) hs1
    rw [htake, hL, hr] at hsplit1
    have hmodlt : Limbs.val (slice num j nnDigits) % Limbs.val dd < Limbs.val dd :=
      Nat.mod_lt _ hdd
    have hR1 : Limbs.val (num1.take nnDigits) < Limbs.val dd * 2 ^ (64 * j) := by
      rw [hsplit1]
      have := Nat.mul_le_mul_left (2 ^ (64 * j)) (Nat.succ_le_of_lt hmodlt)
      rw [Nat.mul_succ] at this
      rw [Nat.mul_comm (Limbs.val dd)]
      omega
    -- the quotient splits into the digit just found and the rest
    have hdecomp : Limbs.val (num.take nnDigits) =
        Limbs.val (num1.take nnDigits) + Limbs.val dd * (ai.toNat * 2 ^ (64 * j)) := by
      have hdm := Nat.mod_add_div (Limbs.val (slice num j nnDigits)) (Limbs.val dd)
      rw [hsplit, hsplit1, hai]
      conv_lhs => rw [← hdm]
      ring
    rcases ih (ai :: q) (by omega) hst hR1 with ⟨q', num', hrun', hst', hql, hqv, hrv⟩
    refine ⟨q', num', ?_, hst', ?_, ?_, ?_⟩
    · rw [divLoop, hrun]
      exact hrun'
    · rw [hql, List.length_cons]
      omega
    · rw [hqv, hdecomp, Nat.add_mul_div_left _ _ hdd, val_cons, pow_succ_mul]
      ring
    · rw [hrv, hdecomp, Nat.add_mul_mod_self_left]

end Round

/-! ## The whole division -/

theorem bitCount_lt_iff (v k : Nat) : bitCount v ≤ k ↔ v < 2 ^ k := by
  unfold bitCount
  by_cases hv : v = 0
  · simp [hv]
  · rw [if_neg hv, Nat.succ_le_iff, Nat.log2_lt hv]

theorem bnDigitClz_top {b : Bn} (hb : b.WF) (h0 : b.digits ≠ 0) :
    bnDigitClz (b.dig (b.digits - 1)) = topClz b.value := by
  have htop := hb.top.resolve_left h0
  have hspec := bnDigitClz_spec htop
  have h32 := hb.digits_le_32
  have hv0 : b.value ≠ 0 := fun h => h0 (hb.digits_eq_zero.mpr h)
  have hd0 : (b.dig (b.digits - 1)).toNat ≠ 0 :=
    fun h => htop (BitVec.eq_of_toNat_eq (by simpa using h))
  generalize hd : b.dig (b.digits - 1) = d at hspec htop hd0
  have hval : b.value = Limbs.val (b.num.toList.take (b.digits - 1)) +
      2 ^ (64 * (b.digits - 1)) * d.toNat := by
    rw [value, sig_concat (by omega) h32, val_append, hd, List.length_take,
      NumArray.length_toList, Nat.min_eq_left (by omega)]
    simp
  have hlow : Limbs.val (b.num.toList.take (b.digits - 1)) < 2 ^ (64 * (b.digits - 1)) := by
    refine (val_lt _).trans_le (Nat.pow_le_pow_right (by decide) (Nat.mul_le_mul_left _ ?_))
    exact List.length_take_le _ _
  -- the top bit of the number is the top bit of its top digit
  have hlog : b.value.log2 = 64 * (b.digits - 1) + d.toNat.log2 := by
    rw [Nat.log2_eq_iff hv0]
    constructor
    · have := Nat.log2_self_le hd0
      calc 2 ^ (64 * (b.digits - 1) + d.toNat.log2) =
            2 ^ (64 * (b.digits - 1)) * 2 ^ d.toNat.log2 := Nat.pow_add _ _ _
        _ ≤ 2 ^ (64 * (b.digits - 1)) * d.toNat := Nat.mul_le_mul_left _ this
        _ ≤ b.value := by omega
    · have hlt : d.toNat + 1 ≤ 2 ^ (d.toNat.log2 + 1) := Nat.lt_log2_self
      have hmul := Nat.mul_le_mul_left (2 ^ (64 * (b.digits - 1))) hlt
      rw [← Nat.pow_add, Nat.mul_add, Nat.mul_one, ← Nat.add_assoc] at hmul
      omega
  rw [topClz, bitCount, if_neg hv0, ← hb.digits_eq, hlog]
  omega

/-- The digits above the number are zero up to the capacity. -/
def Clean (b : Bn) : Prop := Limbs.val (b.num.toList.take b.count) = b.value

theorem bnInitDigits_clean {b : Bn} (hb : b.WF) : (b.bnInitDigits b.count).Clean := by
  have hval := bnInitDigits_val_take hb.digits_le hb.count_le b.count hb.digits_le
    (le_max_of_le_right (by omega) : b.count ≤ max b.digits (min b.count b.count))
  rw [Clean, bnInitDigits_count, hval, value, value, bnInitDigits_sig hb]

theorem Clean.divState {b : Bn} (hb : b.WF) (hclean : b.Clean) :
    DivState b.count b.digits b.num.toList := by
  refine ⟨b.num.length_toList, hb.digits_le, hb.count_le, ?_⟩
  intro i hi hic
  have hget : b.num.toList.getD i 0 = (b.num.toList.take b.count).getD i 0 := by
    rw [List.getD_eq_getElem?_getD, List.getD_eq_getElem?_getD, List.getElem?_take, if_pos hic]
  have hzero : b.value / 2 ^ (64 * i) = 0 := Nat.div_eq_of_lt
    (hb.value_lt.trans_le (Nat.pow_le_pow_right (by decide) (by omega)))
  rw [hget, getD_eq_ofNat, hclean, hzero]
  rfl

/-- A left shift of a clean number that does not lose bits leaves it clean. -/
theorem bnLShift_clean {b : Bn} (hb : b.WF) (hclean : b.Clean) {bits : Nat} {t : Bn}
    (hrun : bnLShift bits b = .ok () t) (hbits : bits < 64 * b.count + 8) : t.Clean := by
  have hdc := hb.digits_le
  have hc32 := hb.count_le
  rw [bnLShift] at hrun
  by_cases h0 : b.digits = 0
  · rw [if_pos h0] at hrun
    injection hrun with _ ht
    rw [← ht]
    exact hclean
  · rw [if_neg h0] at hrun
    simp only at hrun
    generalize hk : min b.count (b.digits + 1 + bits / 64) = k at hrun
    have hlen : ((b.bnInitDigits k).num.toList.take k).length = k := by
      rw [List.length_take, NumArray.length_toList]
      omega
    rcases bnDigitsLShift_ok (a := (b.bnInitDigits k).num.toList.take k) bits
      (by rw [hlen]; omega) with ⟨l, hl, hll, -⟩
    rw [hlen] at hll
    rw [hl] at hrun
    injection hrun with _ ht
    have hinit := bnInitDigits_wf hb k
    have hspan : (b.bnInitDigits k).updateSpan k = k := by
      rw [updateSpan, bnInitDigits_count, bnInitDigits_digits]
      split <;> omega
    rcases write_update (b := b.bnInitDigits k) (l := l) (k := k) hinit.1.digits_le
      hinit.1.count_le (by rw [bnInitDigits_count]; omega) (by omega) with ⟨hwf, habs⟩
    have hllt : Limbs.val l < 2 ^ (64 * k) := hll ▸ val_lt l
    rw [hspan, Nat.mod_eq_of_lt hllt, bnInitDigits_count, ht] at habs
    have hnum : t.num.toList = l ++ (b.bnInitDigits k).num.toList.drop k := by
      rw [← ht, ← hll, ← write_toList _ (by omega)]
      unfold bnUpdateDigits
      split
      · rfl
      · split
        · rfl
        · split <;> rfl
    -- the digits above the shifted ones were zero before
    have hhigh : Limbs.val (((b.bnInitDigits k).num.toList.drop k).take (b.count - k)) = 0 := by
      have hsame : (b.bnInitDigits k).num.toList.drop k = b.num.toList.drop k := by
        rw [bnInitDigits]
        split
        · rfl
        · have hpre : (b.num.toList.take b.digits ++
              List.replicate (min k b.count - b.digits) (0 : Digit)).length = k := by
            rw [List.length_append, List.length_take, List.length_replicate,
              NumArray.length_toList]
            omega
          rw [write_toList _ (by rw [hpre]; omega), List.drop_append, hpre, Nat.sub_self,
            List.drop_zero, List.drop_of_length_le (by rw [hpre]), List.nil_append]
      rw [hsame, ← List.drop_take, val_drop, hclean]
      exact Nat.div_eq_of_lt (hb.value_lt.trans_le (Nat.pow_le_pow_right (by decide) (by omega)))
    have hcount : t.count = b.count := congrArg Num.count habs
    have hvalue : t.value = Limbs.val l := congrArg Num.val habs
    rw [Clean, hcount, hvalue, hnum, List.take_append, List.take_of_length_le (by omega), hll,
      val_append, hhigh, Nat.mul_zero, Nat.add_zero]

theorem normalize_spec (J : Junk) {b : Bn} (hb : b.WF) {shift : Nat} (hv : b.value ≠ 0)
    (hs : shift < 64) (hfit : b.value * 2 ^ shift < 2 ^ (64 * b.count)) :
    ∃ c t, bnAssignInit b (uninit J) = .ok () c ∧
      bnLShift shift (c.bnInitDigits c.count) = .ok () t ∧
      t.WF ∧ t.abs = ⟨b.count, b.value * 2 ^ shift⟩ ∧ t.Clean := by
  rcases (bnAssignInit_refines (argWF_val hb)).ok (uninit_wf J) rfl with ⟨c, hc, hcabs, hcwf⟩
  have hinit := bnInitDigits_wf hcwf c.count
  have hclean := bnInitDigits_clean hcwf
  have habs : (c.bnInitDigits c.count).abs = b.abs := hinit.2.trans hcabs
  have hcount : 0 < b.count := by
    by_contra h
    rw [show b.count = 0 from by omega] at hfit
    have : 0 < b.value * 2 ^ shift := Nat.mul_pos (Nat.pos_of_ne_zero hv) (Nat.two_pow_pos _)
    omega
  have hnum : Num.bnLShift shift (c.bnInitDigits c.count).abs =
      .ok () ⟨b.count, b.value * 2 ^ shift⟩ := by
    rw [habs, Num.bnLShift, abs_val, abs_count, if_neg hv, if_neg (by omega), Num.cap, abs_count,
      Nat.mod_eq_of_lt hfit]
  rcases (bnLShift_refines shift).ok hinit.1 hnum with ⟨t, ht, htabs, htwf⟩
  have hccount : (c.bnInitDigits c.count).count = b.count := congrArg Num.count habs
  exact ⟨c, t, hc, ht, htwf, htabs, bnLShift_clean hinit.1 hclean ht (by rw [hccount]; omega)⟩

theorem bitCount_le_limbCount (v : Nat) : bitCount v ≤ 64 * limbCount 64 v :=
  (bitCount_lt_iff _ _).mpr (lt_pow_limbCount (by decide) v)

theorem shift_topClz {v : Nat} (hv : v ≠ 0) :
    v * 2 ^ topClz v < 2 ^ (64 * limbCount 64 v) ∧
      2 ^ (64 * limbCount 64 v - 1) ≤ v * 2 ^ topClz v := by
  have hle := bitCount_le_limbCount v
  have hsum : bitCount v + topClz v = 64 * limbCount 64 v := by
    unfold topClz
    omega
  have hlog : bitCount v = v.log2 + 1 := by
    unfold bitCount
    rw [if_neg hv]
  constructor
  · rw [← hsum, Nat.pow_add]
    exact Nat.mul_lt_mul_of_pos_right ((bitCount_lt_iff _ _).mp le_rfl) (Nat.two_pow_pos _)
  · rw [← hsum, hlog, Nat.add_right_comm, Nat.add_sub_cancel, Nat.pow_add]
    exact Nat.mul_le_mul_right _ (Nat.log2_self_le hv)

theorem topClz_lt {v : Nat} (hv : v ≠ 0) : topClz v < 64 := by
  have hpos : 0 < limbCount 64 v := Nat.pos_of_ne_zero (fun h => hv (limbCount_eq_zero.mp h))
  by_contra hge
  have hbits : bitCount v ≤ 64 * (limbCount 64 v - 1) := by
    unfold topClz at hge
    omega
  have := (limbCount_le_iff (by decide : 0 < 64) v _).mpr ((bitCount_lt_iff _ _).mp hbits)
  omega

/-- What `bn_div` has computed before it stores the results. -/
theorem divCore_spec (J : Junk) {b d : Bn} (hb : b.WF) (hd : d.WF) (hd0 : d.value ≠ 0)
    (hlt : d.value < b.value)
    (hfit : ¬ (b.count = limbCount 64 b.value ∧ topClz b.value < topClz d.value)) :
    ∃ cd dd cn nn q num, bnAssignInit d (uninit (J 0)) = .ok () cd ∧
      bnLShift (topClz d.value) (cd.bnInitDigits cd.count) = .ok () dd ∧
      bnAssignInit b (uninit (J 1)) = .ok () cn ∧
      bnLShift (topClz d.value) (cn.bnInitDigits cn.count) = .ok () nn ∧
      divLoop nn.count nn.digits dd.sig (dd.dig (dd.digits - 1)) (1 + nn.digits - dd.digits) []
        nn.num.toList = .ok (q, num) ∧
      dd.WF ∧ 0 < dd.digits ∧ dd.digits ≤ nn.digits ∧
      nn.WF ∧ nn.count = b.count ∧ num.length = 32 ∧ q.length = 1 + nn.digits - dd.digits ∧
      q.length ≤ b.count ∧ Limbs.val q = b.value / d.value ∧
      Limbs.val (num.take nn.digits) = b.value % d.value * 2 ^ topClz d.value := by
  have hs := topClz_lt hd0
  rcases shift_topClz hd0 with ⟨hDlt, hDge⟩
  have hspos := Nat.two_pow_pos (topClz d.value)
  have hb0 : b.value ≠ 0 := by omega
  have hbfit : b.value * 2 ^ topClz d.value < 2 ^ (64 * b.count) := by
    have hbd := hb.digits_eq
    have hdc := hb.digits_le
    by_cases hfull : b.count = limbCount 64 b.value
    · have hsh : topClz d.value ≤ topClz b.value := by
        by_contra h
        exact hfit ⟨hfull, by omega⟩
      rw [hfull]
      exact (Nat.mul_le_mul_left _ (Nat.pow_le_pow_right (by decide) hsh)).trans_lt
        (shift_topClz hb0).1
    · have hlt64 : b.value * 2 ^ topClz d.value < 2 ^ (64 * b.digits) * 2 ^ 64 :=
        Nat.mul_lt_mul'' hb.value_lt (Nat.pow_lt_pow_right (by decide) hs)
      refine hlt64.trans_le ?_
      rw [← Nat.pow_add]
      exact Nat.pow_le_pow_right (by decide) (by omega)
  have hdfit : d.value * 2 ^ topClz d.value < 2 ^ (64 * d.count) := by
    refine hDlt.trans_le (Nat.pow_le_pow_right (by decide) (Nat.mul_le_mul_left _ ?_))
    rw [← hd.digits_eq]
    exact hd.digits_le
  rcases normalize_spec (J 0) hd hd0 hs hdfit with ⟨cd, dd, hcd, hdd, hddwf, hddabs, -⟩
  rcases normalize_spec (J 1) hb hb0 hs hbfit with ⟨cn, nn, hcn, hnn, hnnwf, hnnabs, hnnclean⟩
  have hddval : dd.value = d.value * 2 ^ topClz d.value := congrArg Num.val hddabs
  have hnnval : nn.value = b.value * 2 ^ topClz d.value := congrArg Num.val hnnabs
  have hnncount : nn.count = b.count := congrArg Num.count hnnabs
  -- the divisor keeps its number of digits and its top bit is set
  have hm : dd.digits = limbCount 64 d.value := by
    rw [hddwf.digits_eq, hddval]
    apply le_antisymm
    · exact (limbCount_le_iff (by decide) _ _).mpr hDlt
    · exact limbCount_mono (by decide) (Nat.le_mul_of_pos_right _ hspos)
  have hmpos : 0 < dd.digits := by
    rw [hm]
    exact Nat.pos_of_ne_zero (fun h => hd0 (limbCount_eq_zero.mp h))
  have hle : dd.digits ≤ nn.digits := by
    rw [hddwf.digits_eq, hnnwf.digits_eq, hddval, hnnval]
    exact limbCount_mono (by decide) (Nat.mul_le_mul_right _ hlt.le)
  rw [← hm] at hDge hDlt
  rw [← hddval] at hDge hDlt
  have hne : dd.sig ≠ [] := by
    intro h
    have := hddwf.length_sig
    rw [h] at this
    exact hmpos.ne' this.symm
  have ht : (dd.dig (dd.digits - 1)).toNat = dd.value / 2 ^ (64 * (dd.sig.length - 1)) := by
    rw [hddwf.length_sig, dig_eq_sig dd (by omega), getD_eq_ofNat, ← value, BitVec.toNat_ofNat]
    apply Nat.mod_eq_of_lt
    rw [Nat.div_lt_iff_lt_mul (Nat.two_pow_pos _), ← Nat.pow_add,
      show 64 + 64 * (dd.digits - 1) = 64 * dd.digits from by omega]
    exact hDlt
  have hR : Limbs.val (nn.num.toList.take nn.digits) <
      dd.value * 2 ^ (64 * (1 + nn.digits - dd.digits)) := by
    refine hnnwf.value_lt.trans_le (le_trans ?_ (Nat.mul_le_mul_right _ hDge))
    rw [← Nat.pow_add]
    exact Nat.pow_le_pow_right (by decide) (by omega)
  rcases divLoop_spec hne (by rw [← value]; exact (Nat.two_pow_pos _).trans_le hDge) ht
    (1 + nn.digits - dd.digits) [] (by rw [hddwf.length_sig]; omega)
    (hnnclean.divState hnnwf) hR with ⟨q, num, hrun, hst, hql, hqv, hrv⟩
  rw [List.length_nil, Nat.add_zero] at hql
  refine ⟨cd, dd, cn, nn, q, num, hcd, hdd, hcn, hnn, hrun, hddwf, hmpos, hle, hnnwf, hnncount,
    hst.length, hql, ?_, ?_, ?_⟩
  · rw [hql, ← hnncount]
    have := hnnwf.digits_le
    omega
  · rw [hqv, val_nil, Nat.mul_zero, Nat.add_zero, ← sig, ← value, ← value, hddval, hnnval,
      Nat.mul_div_mul_right _ _ hspos]
  · rw [hrv, ← sig, ← value, ← value, hddval, hnnval, Nat.mul_mod_mul_right]

/-- `Refines` for the division, which also hands back the remainder record. -/
def RefinesDiv (f : BnM Bn (Option Bn)) (g : BnM Num (Option Num)) : Prop :=
  ∀ b : Bn, b.WF → mapRes Bn.abs (Option.map Bn.abs) (f b) = g b.abs ∧ (stateOf (f b)).WF ∧
    ∀ r, valueOf (f b) = .ok (some r) → r.WF

/-- A remainder argument that is another normalised record. -/
def RemWF (r : Rem Bn) : Prop := ∀ x, r = .other x → x.WF

private theorem store_quotient {b : Bn} (hb : b.WF) {q : List Digit} (hq : q.length ≤ b.count) :
    ((write { b with digits := 0 } q).bnUpdateDigits q.length).WF ∧
    ((write { b with digits := 0 } q).bnUpdateDigits q.length).abs = ⟨b.count, Limbs.val q⟩ := by
  have hspan : updateSpan { b with digits := 0 } q.length = q.length := by
    unfold updateSpan
    split
    · exact le_antisymm (by assumption) hq
    · exact Nat.max_eq_left (Nat.zero_le _)
  rcases write_update (b := { b with digits := 0 }) (l := q) (k := q.length) (Nat.zero_le _)
    hb.count_le hq hspan.le with ⟨hwf, habs⟩
  refine ⟨hwf, ?_⟩
  rw [habs, hspan, Nat.mod_eq_of_lt (val_lt q)]

private theorem store_remainder {nn : Bn} (hnn : nn.WF) {num : List Digit} (hlen : num.length = 32)
    {r shift : Nat} (hs : shift < 64) (hval : Limbs.val (num.take nn.digits) = r * 2 ^ shift) :
    ∃ t, bnRShift shift ((nn.write num).bnUpdateDigits nn.digits) = .ok () t ∧ t.WF ∧
      t.abs = ⟨nn.count, r⟩ := by
  have hspan : (nn.write num).updateSpan nn.digits = nn.digits := by
    rw [updateSpan, write_count, write_digits, Nat.max_self]
    split
    · exact le_antisymm (by assumption) hnn.digits_le
    · rfl
  rcases bnUpdateDigits_spec (b := nn.write num) hnn.digits_le hnn.count_le nn.digits
    with ⟨hwf, habs⟩
  have hnum : (nn.write num).num.toList = num := by
    rw [write_toList nn (by omega), List.drop_of_length_le (by rw [nn.num.length_toList]; omega),
      List.append_nil]
  rw [hspan, hnum, hval, write_count] at habs
  have hrun : Num.bnRShift shift ((nn.write num).bnUpdateDigits nn.digits).abs =
      .ok () ⟨nn.count, r⟩ := by
    rw [habs, Num.bnRShift]
    by_cases h0 : r * 2 ^ shift = 0
    · rw [if_pos h0]
      have hr : r = 0 := (Nat.mul_eq_zero.mp h0).resolve_right (Nat.two_pow_pos _).ne'
      rw [hr, Nat.zero_mul]
    · have hpos : 0 < limbCount 64 (r * 2 ^ shift) :=
        Nat.pos_of_ne_zero (fun h => h0 (limbCount_eq_zero.mp h))
      rw [if_neg h0, if_neg (by simp only; omega)]
      simp only [Nat.mul_div_cancel _ (Nat.two_pow_pos shift)]
  rcases (bnRShift_refines shift).ok hwf hrun with ⟨t, ht, htabs, htwf⟩
  exact ⟨t, ht, htwf, htabs⟩

private theorem numDiv_of_lt (J : Junk) {x y : Num} (hy : y.val ≠ 0) (hlt : y.val < x.val)
    (rem : Rem Num) :
    Num.bnDiv J (.val y) rem x =
      if x.count = limbCount 64 x.val ∧ topClz x.val < topClz y.val then .error .eoverflow x
      else
        match rem with
        | .null => .ok none { x with val := x.val / y.val }
        | .self => .ok none { x with val := x.val % y.val }
        | .other r =>
          if r.count < limbCount 64 (x.val % y.val) then
            .error .eoverflow { x with val := x.val / y.val }
          else .ok (some { r with val := x.val % y.val }) { x with val := x.val / y.val } := by
  have heq : ¬ x.val = ((Arg.val y).get x).val := hlt.ne'
  have hle : ¬ x.val < ((Arg.val y).get x).val := Nat.not_lt.mpr hlt.le
  unfold Num.bnDiv
  rw [if_neg (show ¬ ((Arg.val y).get x).val = 0 from hy), if_neg heq, if_neg hle]
  rfl

/-- The long division of `bn_div`. -/
theorem divMain_refines (J : Junk) {b d : Bn} (hb : b.WF) (hd : d.WF) (hd0 : d.value ≠ 0)
    (hlt : d.value < b.value) {rem : Rem Bn} (hrem : RemWF rem) :
    mapRes Bn.abs (Option.map Bn.abs) (divMain J d rem b) =
      Num.bnDiv J (.val d.abs) (rem.map abs) b.abs ∧ (stateOf (divMain J d rem b)).WF ∧
    ∀ r, valueOf (divMain J d rem b) = .ok (some r) → r.WF := by
  have hb0 : b.value ≠ 0 := by omega
  have hclz := bnDigitClz_top hd (fun h => hd0 (hd.digits_eq_zero.mp h))
  have hclzb := bnDigitClz_top hb (fun h => hb0 (hb.digits_eq_zero.mp h))
  rw [numDiv_of_lt J (x := b.abs) (y := d.abs) hd0 hlt]
  simp only [divMain, hclz, hclzb]
  rw [hb.digits_eq, abs_count, abs_val, abs_val]
  by_cases hfit : b.count = limbCount 64 b.value ∧ topClz b.value < topClz d.value
  · rw [if_pos hfit, if_pos hfit]
    exact ⟨rfl, hb, fun r h => by cases h⟩
  rw [if_neg hfit, if_neg hfit]
  rcases divCore_spec J hb hd hd0 hlt hfit with ⟨cd, dd, cn, nn, q, num, hcd, hdd, hcn, hnn, hrun,
    -, -, -, hnnwf, hnncount, hnum, hql, hqc, hqv, hrv⟩
  rcases store_quotient hb hqc with ⟨hqwf, hqabs⟩
  rcases store_remainder hnnwf hnum (topClz_lt hd0) hrv with ⟨rm, hrm, hrmwf, hrmabs⟩
  rw [hqv] at hqabs
  simp only [bind_apply, exec_apply, hcd, fold_ok, hdd, hcn, hnn, bnAssignZero, hrun,
    modify_apply]
  rw [← hql]
  generalize (write { b with digits := 0 } q).bnUpdateDigits q.length = b' at hqwf hqabs
  cases rem with
  | null => exact ⟨by simp [hqabs], hqwf, fun r h => by cases h⟩
  -- the remainder goes over the quotient, which it always fits
  | self =>
    have hassign : Num.bnAssign (.val rm.abs) b'.abs = .ok () ⟨b.count, b.value % d.value⟩ := by
      have hle : limbCount 64 (b.value % d.value) ≤ b.count := by
        refine le_trans (limbCount_mono (by decide) (Nat.mod_le _ _)) ?_
        rw [← hb.digits_eq]
        exact hb.digits_le
      simp only [Num.bnAssign, hrmabs, hqabs]
      rw [if_neg (Nat.not_lt.mpr hle)]
    rcases (bnAssign_refines (argWF_val hrmwf)).ok hqwf hassign with ⟨t, ht, htabs, htwf⟩
    simp only [bind_apply, exec_apply, hrm, fold_ok, ht, pure_apply, mapRes_ok, htabs]
    exact ⟨rfl, htwf, fun r h => by cases h⟩
  | other r =>
    rcases bnAssign_refines (argWF_val hrmwf) r (hrem r rfl) with ⟨heq, hwf⟩
    simp only [Num.bnAssign, hrmabs] at heq
    simp only [bind_apply, exec_apply, hrm, fold_ok, pure_apply]
    -- another number has to have the digits for it; the quotient stays either way
    by_cases hr : r.abs.count < limbCount 64 (b.value % d.value)
    · rw [if_pos hr] at heq ⊢
      cases hres : bnAssign (.val rm) r with
      | ok a t =>
        rw [hres] at heq
        cases heq
      | error e t =>
        rw [hres] at heq
        injection heq with he
        simp only [fold_error, mapRes_error, he, hqabs]
        exact ⟨trivial, hqwf, fun r h => by cases h⟩
    · rw [if_neg hr] at heq ⊢
      cases hres : bnAssign (.val rm) r with
      | ok a t =>
        rw [hres] at heq hwf
        injection heq with _ ht
        simp only [fold_ok, mapRes_ok, hqabs, Option.map_some, ht]
        refine ⟨trivial, hqwf, ?_⟩
        intro r' hr'
        injection hr' with hr'
        injection hr' with hr'
        rw [← hr']
        exact hwf
      | error e t =>
        rw [hres] at heq
        cases heq

private theorem divEq_refines {rem : Rem Bn} (hrem : RemWF rem) {b : Bn} (hb : b.WF)
    (h0 : b.value ≠ 0) :
    mapRes Bn.abs (Option.map Bn.abs) (divEq rem b) = Num.divEq (rem.map abs) b.abs ∧
      (stateOf (divEq rem b)).WF ∧ ∀ r, valueOf (divEq rem b) = .ok (some r) → r.WF := by
  have hcount : b.abs.count ≠ 0 := by
    intro h
    have := hb.value_lt_cap
    rw [show b.count = 0 from h] at this
    omega
  have hone : Num.bnAssignDigit 1 b.abs = .ok () { b.abs with val := 1 } := by
    rw [Num.bnAssignDigit, if_neg hcount]
    rfl
  rcases (bnAssignDigit_refines (by decide : (1 : Digit) ≠ 0)).ok hb hone with ⟨t, ht, habs, hwf⟩
  cases rem with
  | null =>
    simp only [divEq, ht, stateOf_ok, mapRes_ok, habs]
    exact ⟨rfl, hwf, fun r h => by cases h⟩
  | self =>
    simp only [divEq, stateOf_ok, mapRes_ok, abs_zero_digits]
    exact ⟨rfl, wf_zero_digits hb.count_le, fun r h => by cases h⟩
  | other r =>
    simp only [divEq, ht, stateOf_ok, mapRes_ok, habs, Option.map_some, abs_zero_digits]
    refine ⟨rfl, hwf, ?_⟩
    rintro r' hr'
    injection hr' with hr'
    injection hr' with hr'
    rw [← hr']
    exact wf_zero_digits (hrem r rfl).count_le

/-- `bn_div` for `bn < d`: the quotient is 0 and `bn` is the remainder. -/
private theorem divSmall_refines (J : Junk) {b d : Bn} (hb : b.WF) (hlt : b.value < d.value)
    {rem : Rem Bn} (hrem : RemWF rem) :
    mapRes Bn.abs (Option.map Bn.abs) (divSmall rem b) =
      Num.bnDiv J (.val d.abs) (rem.map abs) b.abs ∧
    (stateOf (divSmall rem b)).WF ∧ ∀ r, valueOf (divSmall rem b) = .ok (some r) → r.WF := by
  have hd0 : ¬ ((Arg.val d.abs).get b.abs).val = 0 := (Nat.zero_le _).trans_lt hlt |>.ne'
  have heq : ¬ b.abs.val = ((Arg.val d.abs).get b.abs).val := hlt.ne
  have hlt' : b.abs.val < ((Arg.val d.abs).get b.abs).val := hlt
  unfold Num.bnDiv
  rw [if_neg hd0, if_neg heq, if_pos hlt']
  cases rem with
  | null =>
    simp only [divSmall, mapRes_ok, stateOf_ok, abs_zero_digits]
    exact ⟨rfl, wf_zero_digits hb.count_le, fun r h => by cases h⟩
  | self => exact ⟨rfl, hb, fun r h => by cases h⟩
  | other r =>
    rcases bnAssign_refines (argWF_val hb) r (hrem r rfl) with ⟨hrun, hwf⟩
    simp only [Num.bnAssign] at hrun
    simp only
    by_cases hr : r.abs.count < limbCount 64 b.abs.val
    · rw [if_pos hr] at hrun ⊢
      cases hassign : bnAssign (.val b) r with
      | ok a t =>
        rw [hassign] at hrun
        cases hrun
      | error e t =>
        rw [hassign] at hrun
        injection hrun with he
        simp only [divSmall, hassign, mapRes_error, stateOf_error, he, abs_zero_digits]
        exact ⟨rfl, wf_zero_digits hb.count_le, fun r h => by cases h⟩
    · rw [if_neg hr] at hrun ⊢
      cases hassign : bnAssign (.val b) r with
      | ok a t =>
        rw [hassign] at hrun hwf
        injection hrun with _ ht
        simp only [divSmall, hassign, mapRes_ok, stateOf_ok, valueOf_ok, Option.map_some, ht,
          abs_zero_digits]
        refine ⟨rfl, wf_zero_digits hb.count_le, ?_⟩
        rintro r' hr'
        injection hr' with hr'
        injection hr' with hr'
        rw [← hr']
        exact hwf
      | error e t =>
        rw [hassign] at hrun
        cases hrun

theorem bnDiv_refines (J : Junk) {d : Arg Bn} (hd : d.WF) {rem : Rem Bn} (hrem : RemWF rem) :
    RefinesDiv (bnDiv J d rem) (Num.bnDiv J (d.map abs) (rem.map abs)) := by
  intro b hb
  have hdw := hd.get hb
  by_cases h0 : (d.get b).value = 0
  · have h0' : (Arg.get (d.map abs) b.abs).val = 0 := by rw [Arg.get_map]; exact h0
    unfold bnDiv Num.bnDiv
    rw [if_pos (hdw.digits_eq_zero.mpr h0), if_pos h0']
    exact ⟨rfl, hb, fun r h => by cases h⟩
  have hd0 : ¬ (d.get b).digits = 0 := fun h => h0 (hdw.digits_eq_zero.mp h)
  cases d with
  | self =>
    have hrun : bnDiv J .self rem b = divEq rem b := by
      unfold bnDiv
      rw [if_neg hd0]
    have hnum : Num.bnDiv J .self (rem.map abs) b.abs = Num.divEq (rem.map abs) b.abs := by
      unfold Num.bnDiv
      rw [if_neg (show ¬ (Arg.get .self b.abs).val = 0 from h0),
        if_pos (show b.abs.val = (Arg.get .self b.abs).val from rfl)]
    rw [hrun, Arg.map_self, hnum]
    exact divEq_refines hrem hb h0
  | val d =>
    unfold bnDiv
    rw [if_neg hd0, Arg.map_val]
    simp only [bnCmp_eq hb (hd d rfl)]
    cases hcmp : compare b.value d.value with
    | lt => exact divSmall_refines J hb (Nat.compare_eq_lt.mp hcmp) hrem
    | eq =>
      have heq : b.value = d.value := Nat.compare_eq_eq.mp hcmp
      have hnum : Num.bnDiv J (.val d.abs) (rem.map abs) b.abs =
          Num.divEq (rem.map abs) b.abs := by
        unfold Num.bnDiv
        rw [if_neg (show ¬ (Arg.get (.val d.abs) b.abs).val = 0 from h0),
          if_pos (show b.abs.val = (Arg.get (.val d.abs) b.abs).val from heq)]
      rw [hnum]
      exact divEq_refines hrem hb (heq ▸ h0)
    | gt => exact divMain_refines J hb (hd d rfl) h0 (Nat.compare_eq_gt.mp hcmp) hrem

end Bn

end BigNum
