import Mathlib.Data.Nat.Prime.Basic
import Mathlib.Data.Nat.ModEq
import Mathlib.Tactic.Ring

/-!
# Barrett's quotient

The estimate of `x / m` that needs a reciprocal of `m` but no division, how far it is off, and when
the rest behind it survives a cut to the length of `m`.
-/

namespace Barrett

variable {p s m x : Nat}

/-- The estimate of `x / m` from the high part `x / p` and the reciprocal `p * s / m`. -/
def estimate (p s m x : Nat) : Nat := x / p * (p * s / m) / s

/-- What is left of `x` behind the estimate. -/
def rest (p s m x : Nat) : Nat := x - estimate p s m x * m

theorem estimate_mul_le (p s m x : Nat) : estimate p s m x * m ≤ x := by
  by_cases hs : s = 0
  · rw [estimate, hs, Nat.div_zero, Nat.zero_mul]
    exact Nat.zero_le x
  have hquot : estimate p s m x * s ≤ x / p * (p * s / m) := Nat.div_mul_le_self _ _
  have hrec : p * s / m * m ≤ p * s := Nat.div_mul_le_self _ _
  have hhigh : x / p * p ≤ x := Nat.div_mul_le_self _ _
  apply Nat.le_of_mul_le_mul_right _ (Nat.pos_of_ne_zero hs)
  calc estimate p s m x * m * s = estimate p s m x * s * m := Nat.mul_right_comm _ _ _
    _ ≤ x / p * (p * s / m) * m := Nat.mul_le_mul_right m hquot
    _ = x / p * (p * s / m * m) := Nat.mul_assoc _ _ _
    _ ≤ x / p * (p * s) := Nat.mul_le_mul_left _ hrec
    _ = x / p * p * s := (Nat.mul_assoc _ _ _).symm
    _ ≤ x * s := Nat.mul_le_mul_right s hhigh

theorem rest_mod (p s m x : Nat) : rest p s m x % m = x % m := by
  have hle := estimate_mul_le p s m x
  rw [Nat.mul_comm] at hle
  rw [rest, Nat.mul_comm, Nat.sub_mul_mod hle]

theorem rest_lt (hp : 0 < p) (hpm : p ≤ m) (hx : x < p * s) : rest p s m x < 3 * m := by
  have hm : 0 < m := hp.trans_le hpm
  have hs : 0 < s := Nat.pos_of_mul_pos_left (Nat.zero_lt_of_lt hx)
  have hhigh : x < (x / p + 1) * p := Nat.lt_mul_of_div_lt (Nat.lt_succ_self _) hp
  have hrec : p * s ≤ (p * s / m + 1) * m :=
    Nat.le_of_lt (Nat.lt_mul_of_div_lt (Nat.lt_succ_self _) hm)
  have hquot : x / p * (p * s / m) ≤ (estimate p s m x + 1) * s :=
    Nat.le_of_lt (Nat.lt_mul_of_div_lt (Nat.lt_succ_self _) hs)
  have hhighs : x / p ≤ s := Nat.le_of_lt (Nat.div_lt_of_lt_mul hx)
  have hscaled : x * s < (estimate p s m x + 3) * m * s := by
    calc x * s < (x / p + 1) * p * s := Nat.mul_lt_mul_of_pos_right hhigh hs
      _ = x / p * (p * s) + p * s := by ring
      _ ≤ x / p * ((p * s / m + 1) * m) + m * s :=
          Nat.add_le_add (Nat.mul_le_mul_left _ hrec) (Nat.mul_le_mul_right s hpm)
      _ = x / p * (p * s / m) * m + x / p * m + m * s := by ring
      _ ≤ (estimate p s m x + 1) * s * m + s * m + m * s := by
          apply Nat.add_le_add_right
          exact Nat.add_le_add (Nat.mul_le_mul_right m hquot) (Nat.mul_le_mul_right m hhighs)
      _ = (estimate p s m x + 3) * m * s := by ring
  have hlt := Nat.lt_of_mul_lt_mul_right hscaled
  rw [Nat.add_mul] at hlt
  rw [rest]
  omega

theorem estimate_of_dvd (hp : 0 < p) (hs : 0 < s) (hpm : p ∣ m) (hms : m ∣ p * s) :
    estimate p s m x = x / m := by
  obtain ⟨c, rfl⟩ := hpm
  obtain ⟨e, rfl⟩ := Nat.dvd_of_mul_dvd_mul_left hp hms
  have hc : 0 < c := Nat.pos_of_mul_pos_right hs
  have he : 0 < e := Nat.pos_of_mul_pos_left hs
  have hrec : p * (c * e) / (p * c) = e := by
    rw [← Nat.mul_assoc, Nat.mul_div_cancel_left _ (Nat.mul_pos hp hc)]
  rw [estimate, hrec, Nat.mul_div_mul_right _ _ he, Nat.div_div_eq_div_mul]

/-- Cut to `j` bits, the rest is still congruent to the number only if the cut takes nothing off:
a modulus for which it could be is a power of two, and the estimate is exact there. -/
theorem rest_cut_iff {i j k : Nat} (hm : 2 ^ i ≤ m) (hmj : m < 2 ^ j) (hx : x < 2 ^ i * 2 ^ k)
    (hjk : j + 1 ≤ i + k) :
    rest (2 ^ i) (2 ^ k) m x % 2 ^ j % m = x % m ↔ rest (2 ^ i) (2 ^ k) m x < 2 ^ j := by
  have hlt := rest_lt (Nat.two_pow_pos i) hm hx
  have hmod := rest_mod (2 ^ i) (2 ^ k) m x
  constructor
  · intro hcut
    by_contra hge
    have hdvd : m ∣ 2 ^ j * (rest (2 ^ i) (2 ^ k) m x / 2 ^ j) := by
      have hsum := Nat.mod_add_div (rest (2 ^ i) (2 ^ k) m x) (2 ^ j)
      have hcong : rest (2 ^ i) (2 ^ k) m x ≡ rest (2 ^ i) (2 ^ k) m x % 2 ^ j [MOD m] :=
        hmod.trans hcut.symm
      rw [show 2 ^ j * (rest (2 ^ i) (2 ^ k) m x / 2 ^ j) =
        rest (2 ^ i) (2 ^ k) m x - rest (2 ^ i) (2 ^ k) m x % 2 ^ j by omega]
      exact (Nat.modEq_iff_dvd' (Nat.mod_le _ _)).mp hcong.symm
    have hq1 : 1 ≤ rest (2 ^ i) (2 ^ k) m x / 2 ^ j :=
      (Nat.one_le_div_iff (Nat.two_pow_pos j)).mpr (not_lt.mp hge)
    have hq2 : rest (2 ^ i) (2 ^ k) m x / 2 ^ j < 3 :=
      Nat.div_lt_of_lt_mul (by omega)
    have hpow : m ∣ 2 ^ (j + 1) := by
      rw [Nat.pow_succ]
      rcases Nat.lt_succ_iff_lt_or_eq.mp hq2 with hq | hq
      · rw [show rest (2 ^ i) (2 ^ k) m x / 2 ^ j = 1 by omega, Nat.mul_one] at hdvd
        exact hdvd.mul_right 2
      · rwa [hq] at hdvd
    obtain ⟨t, ht, rfl⟩ := (Nat.dvd_prime_pow Nat.prime_two).mp hpow
    have hit : i ≤ t := (Nat.pow_le_pow_iff_right (by decide)).mp hm
    have hexact : estimate (2 ^ i) (2 ^ k) (2 ^ t) x = x / 2 ^ t := by
      apply estimate_of_dvd (Nat.two_pow_pos i) (Nat.two_pow_pos k) (Nat.pow_dvd_pow 2 hit)
      rw [← Nat.pow_add]
      exact Nat.pow_dvd_pow 2 (by omega)
    have hrest : rest (2 ^ i) (2 ^ k) (2 ^ t) x = x % 2 ^ t := by
      have hdiv := Nat.mod_add_div x (2 ^ t)
      rw [rest, hexact, Nat.mul_comm]
      omega
    have := Nat.mod_lt x (Nat.two_pow_pos t)
    omega
  · intro hle
    rw [Nat.mod_eq_of_lt hle, hmod]

end Barrett
