import Mathlib.Algebra.Ring.Basic
import Mathlib.Data.Nat.Cast.Basic
import Mathlib.Data.Nat.GCD.Basic
import Mathlib.Tactic.Ring
import Mathlib.Tactic.LinearCombination

/-!
# Euclid's algorithm with cofactors

The quotients of Euclid's algorithm on two numbers, and the cofactors they produce.  Multiplied by
the smaller number a cofactor is, up to a sign that alternates, the remainder of its step modulo the
larger one; this is what inversion by Euclid's algorithm rests on.
-/

namespace Euclid

/-- The quotients of Euclid's algorithm on `u` and `v`. -/
def quotients (u v : Nat) : List Nat :=
  if v = 0 then [] else u / v :: quotients v (u % v)
termination_by v
decreasing_by exact Nat.mod_lt _ (Nat.pos_of_ne_zero (by assumption))

theorem quotients_zero (u : Nat) : quotients u 0 = [] := by
  rw [quotients, if_pos rfl]

theorem quotients_of_ne_zero (u : Nat) {v : Nat} (hv : v ≠ 0) :
    quotients u v = u / v :: quotients v (u % v) := by
  rw [quotients, if_neg hv]

theorem quotients_of_lt {u v : Nat} (huv : u < v) : quotients u v = 0 :: quotients v u := by
  rw [quotients_of_ne_zero u (by omega), Nat.div_eq_of_lt huv, Nat.mod_eq_of_lt huv]

/-- Two successive cofactors after the quotients `qs`. -/
def cofactors : Nat × Nat → List Nat → Nat × Nat
  | p, [] => p
  | p, q :: qs => cofactors (p.2, p.1 + q * p.2) qs

/-- The cofactor that the quotients `qs` lead to. -/
def cofactor (qs : List Nat) : Nat := (cofactors (0, 1) qs).2

theorem cross_step (p₀ p₁ u v : Nat) :
    (p₀ + u / v * p₁) * v + p₁ * (u % v) = p₁ * u + p₀ * v := by
  conv_rhs => rw [← Nat.div_add_mod u v]
  ring

theorem cofactors_prev_mem {m u v : Nat} {p : Nat × Nat} (hv : v ≠ 0) (hvu : v < u)
    (hp : p.2 ≠ 0) (hcross : p.2 * u + p.1 * v = m) :
    (cofactors p (quotients u v)).1 ≠ 0 ∧ (cofactors p (quotients u v)).1 < m := by
  induction v using Nat.strong_induction_on generalizing u p with
  | _ v ih =>
    have hmod := Nat.mod_lt u (Nat.pos_of_ne_zero hv)
    rw [quotients_of_ne_zero u hv, cofactors]
    by_cases h0 : u % v = 0
    · -- the last quotient: the number sought is the cofactor before it
      rw [h0, quotients_zero]
      refine ⟨hp, ?_⟩
      have htwo : p.2 * 2 ≤ p.2 * u := Nat.mul_le_mul_left _ (by omega)
      show p.2 < m
      omega
    · have hquot : u / v ≠ 0 := (Nat.div_pos (Nat.le_of_lt hvu) (Nat.pos_of_ne_zero hv)).ne'
      have hmul : u / v * p.2 ≠ 0 := Nat.mul_ne_zero hquot hp
      have hnext : (p.1 + u / v * p.2) * v + p.2 * (u % v) = m :=
        (cross_step _ _ _ _).trans hcross
      exact ih _ hmod h0 hmod (show p.1 + u / v * p.2 ≠ 0 by omega) hnext

variable {R : Type} [CommRing R]

/-- What the cofactors of remainders `u`, `v` are modulo the larger number; `e` is the sign. -/
structure Tracks (A e : R) (u v : Nat) (p : Nat × Nat) : Prop where
  prev : (p.1 : R) * A = -(e * u)
  cur : (p.2 : R) * A = e * v

theorem Tracks.step {A e : R} {u v : Nat} {p : Nat × Nat} (h : Tracks A e u v p) :
    Tracks A (-e) v (u % v) (p.2, p.1 + u / v * p.2) := by
  constructor
  · rw [h.cur]
    ring
  · have hdiv : (u : R) = v * (u / v : Nat) + (u % v : Nat) := by
      exact_mod_cast congrArg (Nat.cast : Nat → R) (Nat.div_add_mod u v).symm
    have hprev := h.prev
    rw [hdiv] at hprev
    push_cast
    linear_combination hprev + (u / v : Nat) * h.cur

theorem Tracks.run {A : R} {u v : Nat} {e : R} {p : Nat × Nat} (h : Tracks A e u v p) :
    ((cofactors p (quotients u v)).1 : R) * A =
      -(e * (-1) ^ (quotients u v).length * Nat.gcd u v) := by
  induction v using Nat.strong_induction_on generalizing u e p with
  | _ v ih =>
    by_cases hv : v = 0
    · subst hv
      rw [quotients_zero, Nat.gcd_zero_right, List.length_nil, pow_zero, mul_one]
      exact h.prev
    · rw [quotients_of_ne_zero u hv, Nat.gcd_comm, Nat.gcd_rec, List.length_cons, pow_succ]
      refine (ih _ (Nat.mod_lt _ (Nat.pos_of_ne_zero hv)) h.step).trans ?_
      rw [Nat.gcd_comm]
      ring

end Euclid
