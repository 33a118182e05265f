import Liblcb.BigNum.Hom

/-!
# `bn_mult` and `bn_mult_digit`

`bn_mult` gives the product or leaves the number as it was.  `bn_mult_digit` takes the factors 2
and 3 through `bn_add` without a carry, so for these the product has to fit the capacity; its other
factors want a spare digit.
-/

namespace BigNum.Bn

open Limbs StateErr

/-- A number of one digit. -/
def oneDigit (count : Nat) (digit : Digit) : Bn := ⟨count, 1, ⟨digit :: List.replicate 31 0, rfl⟩⟩

theorem oneDigit_wf {count : Nat} {digit : Digit} (h1 : 1 ≤ count) (h32 : count ≤ 32)
    (hd : digit ≠ 0) : (oneDigit count digit).WF := ⟨h1, h32, Or.inr hd⟩

theorem bnMult_error {J : Junk} {n : Arg Bn} {b t : Bn} {e : Err} (h : bnMult J n b = .error e t) :
    e = .eoverflow ∧ t = b := by
  simp only [bnMult] at h
  split at h
  · cases h
  · split at h
    · cases h
      exact ⟨rfl, rfl⟩
    · cases h

/-- `bn_mult` computes the product, and refuses exactly when the digits of two nonzero factors
together exceed the capacity. -/
theorem bnMult_spec (J : Junk) {n : Arg Bn} (hn : n.WF) {b : Bn} (hb : b.WF) :
    (∀ t, bnMult J n b = .ok () t → t.value = b.value * (n.get b).value) ∧
    ((∃ t, bnMult J n b = .error .eoverflow t) ↔
      b.value ≠ 0 ∧ (n.get b).value ≠ 0 ∧ b.count < b.digits + (n.get b).digits) ∧
    ∀ e t, bnMult J n b = .error e t → e = .eoverflow ∧ t = b := by
  have hy := hn.get hb
  rcases bnMult_refines J hn b hb with ⟨hrun, -⟩
  rw [Num.bnMult, Arg.get_map, abs_val, abs_val, abs_count] at hrun
  -- the run as a run on values
  have hval : ∀ t, bnMult J n b = .ok () t → t.value = b.value * (n.get b).value := by
    intro t ht
    rw [ht, mapRes_ok] at hrun
    split at hrun
    next h0 =>
      have hz : b.value * (n.get b).value = 0 := Nat.mul_eq_zero.mpr h0
      injection hrun with _ hs
      rw [hz]
      exact congrArg Num.val hs
    next =>
      split at hrun
      · cases hrun
      · injection hrun with _ hs
        exact congrArg Num.val hs
  refine ⟨hval, ?_, fun e t => bnMult_error⟩
  rw [hb.digits_eq, hy.digits_eq]
  constructor
  · rintro ⟨t, ht⟩
    rw [ht, mapRes_error] at hrun
    split at hrun
    · cases hrun
    next h0 =>
      split at hrun
      next hc => exact ⟨fun h => h0 (.inl h), fun h => h0 (.inr h), hc⟩
      · cases hrun
  · rintro ⟨hx, hy0, hc⟩
    have hnot : ¬ (b.value = 0 ∨ (n.get b).value = 0) := fun h => h.elim hx hy0
    rw [if_neg hnot, if_pos hc] at hrun
    cases hres : bnMult J n b with
    | ok a t =>
      rw [hres] at hrun
      cases hrun
    | error e t => exact ⟨t, by rw [(bnMult_error hres).1]⟩

/-- The square of 3, and a factor that needs a digit more than there is. -/
theorem bnMult_spec_square :
    (∃ t, bnMult blank .self (oneDigit 2 3) = .ok () t ∧ t.value = 9) ∧
    ∃ t, bnMult blank (oneDigit 1 5) (oneDigit 1 3) = .error .eoverflow t := by
  have h3 : (oneDigit 2 3).WF := oneDigit_wf (by decide) (by decide) (by decide)
  have h5 : (oneDigit 1 5).WF := oneDigit_wf (by decide) (by decide) (by decide)
  have h3' : (oneDigit 1 3).WF := oneDigit_wf (by decide) (by decide) (by decide)
  constructor
  · exact ⟨_, rfl, (bnMult_spec blank argWF_self h3).1 _ rfl⟩
  · apply (bnMult_spec blank (argWF_val h5) h3').2.1.mpr
    decide

/-! ## `bn_mult_digit` -/

/-- `bn_mult_digit` returns a product without truncation exactly when the factor is neither 2 nor 3
or the product fits the capacity. -/
theorem bnMultDigit_exact_iff (J : Junk) (n : Digit) {b : Bn} (hb : b.WF) :
    (∀ t, bnMultDigit J n b = .ok () t → t.value = n.toNat * b.value) ↔
      (n ≠ 2 ∧ n ≠ 3) ∨ n.toNat * b.value < 2 ^ (64 * b.count) := by
  rcases bnMultDigit_refines J n b hb with ⟨hrun, -⟩
  rw [Num.bnMultDigit, abs_val, abs_count] at hrun
  -- what a run that returns has computed, path by path
  have hval : ∀ t, bnMultDigit J n b = .ok () t → t.value =
      if n = 2 ∨ n = 3 then n.toNat * b.value % 2 ^ (64 * b.count) else n.toNat * b.value := by
    intro t ht
    rw [ht, mapRes_ok] at hrun
    by_cases h0 : b.value = 0
    · rw [if_pos h0] at hrun
      injection hrun with _ hs
      have hs := congrArg Num.val hs
      rw [abs_val, abs_val] at hs
      rw [hs, h0, Nat.mul_zero, Nat.zero_mod, ite_self]
    · rw [if_neg h0] at hrun
      by_cases hn0 : n = 0
      · rw [if_pos hn0] at hrun
        injection hrun with _ hs
        have hs := congrArg Num.val hs
        subst hn0
        simpa using hs
      · rw [if_neg hn0] at hrun
        by_cases hn1 : n = 1
        · rw [if_pos hn1] at hrun
          injection hrun with _ hs
          have hs := congrArg Num.val hs
          subst hn1
          simpa using hs
        · rw [if_neg hn1] at hrun
          by_cases h23 : n = 2 ∨ n = 3
          · rw [if_pos h23] at hrun
            injection hrun with _ hs
            rw [if_pos h23, Nat.mul_comm]
            exact congrArg Num.val hs
          · rw [if_neg h23] at hrun
            rw [if_neg h23, Nat.mul_comm]
            split at hrun
            · cases hrun
            · injection hrun with _ hs
              exact congrArg Num.val hs
  constructor
  · intro hexact
    by_cases h23 : n = 2 ∨ n = 3
    · right
      -- both paths through `bn_add` return
      obtain ⟨t, ht⟩ : ∃ t, bnMultDigit J n b = .ok () t := by
        have h0 : n ≠ 0 := by rintro rfl; exact absurd h23 (by decide)
        have h1 : n ≠ 1 := by rintro rfl; exact absurd h23 (by decide)
        rw [if_neg h0, if_neg h1, if_pos h23] at hrun
        cases hres : bnMultDigit J n b with
        | ok a t => exact ⟨t, rfl⟩
        | error e t =>
          rw [hres, mapRes_error] at hrun
          split at hrun <;> cases hrun
      have hmod := hval t ht
      rw [if_pos h23, hexact t ht] at hmod
      rw [hmod]
      exact Nat.mod_lt _ (Nat.two_pow_pos _)
    · left
      exact ⟨fun h => h23 (.inl h), fun h => h23 (.inr h)⟩
  · intro hcond t ht
    rw [hval t ht]
    split
    next h23 =>
      have hfit := hcond.resolve_left (fun h => h23.elim h.1 h.2)
      exact Nat.mod_eq_of_lt hfit
    next => rfl

/-- Three times 5 fits one digit. -/
theorem bnMultDigit_exact_iff_five :
    ∃ t, bnMultDigit blank 3 (oneDigit 1 5) = .ok () t ∧ t.value = 15 := by
  have h5 : (oneDigit 1 5).WF := oneDigit_wf (by decide) (by decide) (by decide)
  exact ⟨_, rfl, (bnMultDigit_exact_iff blank 3 h5).mpr (.inr (by decide)) _ rfl⟩

/-- Every product `bn_mult_digit` returns is exact. -/
def MultDigitExact : Prop :=
  ∀ (J : Junk) (n : Digit) (b t : Bn), b.WF → bnMultDigit J n b = .ok () t →
    t.value = n.toNat * b.value

/-- Twice `2^63` in one digit is returned as zero. -/
theorem not_multDigitExact : ¬ MultDigitExact := by
  intro h
  have hwf : (oneDigit 1 (1 <<< 63)).WF := oneDigit_wf (by decide) (by decide) (by decide)
  have hzero : bnMultDigit blank 2 (oneDigit 1 (1 <<< 63)) =
      .ok () { oneDigit 1 0 with digits := 0 } := rfl
  exact absurd (h _ _ _ _ hwf hzero) (by decide)

end BigNum.Bn
