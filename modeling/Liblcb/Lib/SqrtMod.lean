import Mathlib.Algebra.Ring.Commute
import Mathlib.Tactic.LinearCombination
import Mathlib.Tactic.Ring

/-!
# Square roots by powers

The three ways to a square root of a residue: a power of it when minus one is no square, Atkin's
product when two is no square, and the bit by bit correction with a nonresidue.  All is stated
in a commutative ring; that a number is a residue comes in as the value of a power.
-/

namespace SqrtMod

variable {R : Type*} [CommRing R] {a v i x z inv : R} {k n s : Nat}

theorem sq_pow_of_odd (h : a ^ (2 * k + 1) = 1) : (a ^ (k + 1)) ^ 2 = a := by
  calc (a ^ (k + 1)) ^ 2 = a ^ (2 * k + 1) * a := by ring
    _ = a := by rw [h, one_mul]

theorem sq_atkin (hi : i = 2 * a * v ^ 2) (hsq : i ^ 2 = -1) : (a * v * (i - 1)) ^ 2 = a := by
  have hexp : (a * v * (i - 1)) ^ 2 = a ^ 2 * v ^ 2 * (i ^ 2 + 1) - a * i * (2 * a * v ^ 2) := by
    ring
  rw [hexp, hsq, ← hi]
  linear_combination (-a) * hsq

/-- The state of the correction: the error of the root `x` and the nonresidue `z` have orders that
divide `2 ^ n` and `2 ^ (n + 1)`. -/
structure Tonelli (inv x z : R) (n : Nat) : Prop where
  error : (x ^ 2 * inv) ^ 2 ^ n = 1
  root : z ^ 2 ^ n = -1

namespace Tonelli

theorem start {b : R} (hinv : inv * a = 1) (ha : a ^ ((2 * k + 1) * 2 ^ s) = 1)
    (hb : b ^ ((2 * k + 1) * 2 ^ s) = -1) :
    Tonelli inv (a ^ (k + 1)) (b ^ (2 * k + 1)) s where
  error := by
    have herr : (a ^ (k + 1)) ^ 2 * inv = a ^ (2 * k + 1) := by
      calc (a ^ (k + 1)) ^ 2 * inv = a ^ (2 * k + 1) * (inv * a) := by ring
        _ = a ^ (2 * k + 1) := by rw [hinv, mul_one]
    rw [herr, ← pow_mul, ha]
  root := by rw [← pow_mul, hb]

theorem done (hinv : inv * a = 1) (h : Tonelli inv x z 0) : x ^ 2 = a := by
  have herr := h.error
  rw [pow_zero, pow_one] at herr
  calc x ^ 2 = x ^ 2 * inv * a := by rw [mul_assoc, hinv, mul_one]
    _ = a := by rw [herr, one_mul]

theorem half [IsDomain R] (h : Tonelli inv x z (n + 1)) :
    (x ^ 2 * inv) ^ 2 ^ n = 1 ∨ (x ^ 2 * inv) ^ 2 ^ n = -1 := by
  have herr := h.error
  rw [pow_succ 2 n, pow_mul] at herr
  exact sq_eq_one_iff.mp herr

theorem root_sq (h : Tonelli inv x z (n + 1)) : (z ^ 2) ^ 2 ^ n = -1 := by
  rw [← pow_mul, ← pow_succ', h.root]

theorem keep (h : Tonelli inv x z (n + 1)) (hone : (x ^ 2 * inv) ^ 2 ^ n = 1) :
    Tonelli inv x (z ^ 2) n where
  error := hone
  root := h.root_sq

theorem correct (h : Tonelli inv x z (n + 1)) (hneg : (x ^ 2 * inv) ^ 2 ^ n = -1) :
    Tonelli inv (x * z) (z ^ 2) n where
  error := by
    calc ((x * z) ^ 2 * inv) ^ 2 ^ n = (x ^ 2 * inv) ^ 2 ^ n * (z ^ 2) ^ 2 ^ n := by
          rw [← mul_pow]
          ring
      _ = 1 := by rw [hneg, h.root_sq, neg_one_mul, neg_neg]
  root := h.root_sq

end Tonelli

end SqrtMod
