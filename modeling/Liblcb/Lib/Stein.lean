import Mathlib.Data.Nat.Bitwise
import Mathlib.Data.Nat.Prime.Basic

/-!
# Stein's algorithm

The greatest common divisor by shifts and differences: common factors of two are taken out first,
the first number is kept odd, and a round replaces the larger of two odd numbers by their
difference.  The sum of the numbers gets smaller with every round.
-/

namespace Stein

theorem exists_odd {v s : Nat} (hbit : v.testBit s = true) (hlow : ∀ i < s, v.testBit i = false) :
    ∃ u, u % 2 = 1 ∧ v = u * 2 ^ s := by
  have hmod : v % 2 ^ s = 0 := by
    apply Nat.eq_of_testBit_eq
    intro i
    rw [Nat.testBit_mod_two_pow, Nat.zero_testBit]
    by_cases hi : i < s
    · rw [hlow i hi, Bool.and_false]
    · rw [decide_eq_false hi, Bool.false_and]
  refine ⟨v / 2 ^ s, ?_, (Nat.div_mul_cancel (Nat.dvd_of_mod_eq_zero hmod)).symm⟩
  rwa [Nat.testBit_eq_decide_div_mod_eq, decide_eq_true_eq] at hbit

theorem coprime_two_pow {u : Nat} (hu : u % 2 = 1) (k : Nat) : Nat.Coprime (2 ^ k) u := by
  apply Nat.Coprime.pow_left
  rw [Nat.coprime_two_left, Nat.odd_iff]
  exact hu

theorem gcd_mul_two_pow {u : Nat} (hu : u % 2 = 1) (w k : Nat) :
    Nat.gcd u (w * 2 ^ k) = Nat.gcd u w :=
  (coprime_two_pow hu k).gcd_mul_right_cancel_right w

theorem gcd_mul_two_pow_both {u w : Nat} (hu : u % 2 = 1) (hw : w % 2 = 1) (i j : Nat) :
    Nat.gcd (u * 2 ^ i) (w * 2 ^ j) = Nat.gcd u w * 2 ^ min i j := by
  rcases Nat.le_total i j with hij | hji
  · obtain ⟨k, rfl⟩ := Nat.exists_eq_add_of_le hij
    have hpow : w * 2 ^ (i + k) = w * 2 ^ k * 2 ^ i := by
      rw [Nat.mul_assoc, ← Nat.pow_add, Nat.add_comm k i]
    rw [hpow, Nat.gcd_mul_right, gcd_mul_two_pow hu, Nat.min_eq_left hij]
  · obtain ⟨k, rfl⟩ := Nat.exists_eq_add_of_le hji
    have hpow : u * 2 ^ (j + k) = u * 2 ^ k * 2 ^ j := by
      rw [Nat.mul_assoc, ← Nat.pow_add, Nat.add_comm k j]
    rw [hpow, Nat.gcd_mul_right, Nat.gcd_comm, gcd_mul_two_pow hw, Nat.gcd_comm,
      Nat.min_eq_right hji]

/-- The smaller one of two numbers, and their difference. -/
def round (u w : Nat) : Nat × Nat := if w < u then (w, u - w) else (u, w - u)

theorem gcd_round (u w : Nat) : Nat.gcd (round u w).1 (round u w).2 = Nat.gcd u w := by
  rw [round]
  split
  · rename_i h
    show Nat.gcd w (u - w) = Nat.gcd u w
    rw [Nat.gcd_sub_self_right (by omega), Nat.gcd_comm]
  · rename_i h
    show Nat.gcd u (w - u) = Nat.gcd u w
    exact Nat.gcd_sub_self_right (by omega)

theorem round_lt {u w : Nat} (hu : u % 2 = 1) (hw : w % 2 = 1) :
    (round u w).1 + (round u w).2 < u + w := by
  rw [round]
  split
  · show w + (u - w) < u + w
    omega
  · show u + (w - u) < u + w
    omega

end Stein
