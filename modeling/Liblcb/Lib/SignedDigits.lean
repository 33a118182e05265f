import Mathlib.Algebra.BigOperators.Intervals
import Mathlib.Algebra.BigOperators.Ring.Finset
import Mathlib.Tactic.Ring
import Mathlib.Tactic.Linarith

/-!
# Signed binary digits

Strings of signed digits, least significant first, with the number they stand for and how far their
nonzero digits are apart.  The recoding of width `w` takes the balanced remainder modulo `2 ^ w` for
the digit of an odd number; what it gives is described by `IsNaf`, one lemma a step.
-/

namespace SignedDigits

/-- The number that the first `n` digits of `f` stand for. -/
def value (f : Nat → Int) (n : Nat) : Int := ∑ i ∈ Finset.range n, f i * 2 ^ i

@[simp] theorem value_zero (f : Nat → Int) : value f 0 = 0 := rfl

theorem value_succ (f : Nat → Int) (n : Nat) :
    value f (n + 1) = f 0 + 2 * value (fun i => f (i + 1)) n := by
  rw [value, Finset.sum_range_succ', value, Finset.mul_sum, add_comm, pow_zero, mul_one]
  congr 1
  apply Finset.sum_congr rfl
  intro i _
  ring

/-- The digits of a list, with zeros behind it. -/
def digitsOf (ds : List Int) : Nat → Int := fun i => ds.getD i 0

theorem value_cons (d : Int) (ds : List Int) :
    value (digitsOf (d :: ds)) (d :: ds).length = d + 2 * value (digitsOf ds) ds.length :=
  value_succ (digitsOf (d :: ds)) ds.length

/-- Of any `w` digits in a row at most one is not zero. -/
def Sparse (w : Nat) (f : Nat → Int) : Prop := ∀ i j, i < j → j < i + w → f i = 0 ∨ f j = 0

theorem Sparse.cons {w : Nat} {d : Int} {ds : List Int} (h : Sparse w (digitsOf ds))
    (hd : d = 0 ∨ ∀ i, i + 1 < w → digitsOf ds i = 0) : Sparse w (digitsOf (d :: ds)) := by
  intro i j hij hjw
  obtain ⟨j, rfl⟩ : ∃ k, j = k + 1 := ⟨j - 1, by omega⟩
  cases i with
  | zero => exact hd.imp_right fun hzero => hzero j (by omega)
  | succ i => exact h i j (by omega) (by omega)

/-- What the recoding of `v` with width `w` is. -/
structure IsNaf (w v : Nat) (ds : List Int) : Prop where
  value : value (digitsOf ds) ds.length = v
  length_le : ∀ k, 2 * v ≤ 2 ^ k → ds.length ≤ k
  digit : ∀ d ∈ ds, d ≠ 0 → d % 2 = 1 ∧ |d| < 2 ^ (w - 1)
  sparse : Sparse w (digitsOf ds)
  zeros : ∀ k i, 2 ^ k ∣ v → i < k → digitsOf ds i = 0

/-- The multiple of `2 ^ (u + 2)` above an odd number is not above a power of two that is not below
the number. -/
theorem two_mul_le_of_neg {u k v v' : Nat} {d q : Int} (hk : v ≤ 2 ^ k) (hodd : v % 2 = 1)
    (hneg : d < 0) (hlo : -2 ^ (u + 1) ≤ d) (hv' : (v : Int) = d + 2 * v')
    (hhalf : (v' : Int) = 2 ^ (u + 1) * q) : 2 * v' ≤ 2 ^ k := by
  have hv : (v : Int) = d + 2 ^ (u + 2) * q := by
    rw [hv', hhalf, pow_succ 2 (u + 1)]
    ring
  have hq : 1 ≤ q := by
    by_contra hq
    have : (2 : Int) ^ (u + 2) * q ≤ 0 := mul_nonpos_of_nonneg_of_nonpos (by positivity) (by omega)
    omega
  have hvlo : 2 ^ (u + 1) ≤ v := by
    have : (2 : Int) ^ (u + 2) * 1 ≤ 2 ^ (u + 2) * q := by gcongr
    have htwo : (2 : Int) ^ (u + 2) = 2 * 2 ^ (u + 1) := pow_succ' 2 (u + 1)
    zify
    omega
  -- so the exponent is at least that of the multiple
  have huk : u + 1 < k := by
    rcases Nat.lt_or_ge (u + 1) k with h | h
    · exact h
    · have hle : 2 ^ k ≤ 2 ^ (u + 1) := Nat.pow_le_pow_right (by decide) h
      have heven : 2 ^ (u + 1) % 2 = 0 := by
        rw [Nat.pow_succ]
        omega
      omega
  obtain ⟨j, rfl⟩ : ∃ j, k = u + 2 + j := ⟨k - (u + 2), by omega⟩
  have hqj : q ≤ 2 ^ j := by
    by_contra hgt
    have hmul : (2 : Int) ^ (u + 2) * (2 ^ j + 1) ≤ 2 ^ (u + 2) * q := by
      gcongr
      omega
    have hexp : (2 : Int) ^ (u + 2) * (2 ^ j + 1) = 2 ^ (u + 2 + j) + 2 ^ (u + 2) := by
      rw [pow_add _ (u + 2) j]
      ring
    have htwo : (2 : Int) ^ (u + 2) = 2 * 2 ^ (u + 1) := pow_succ' 2 (u + 1)
    have hpos : (0 : Int) < 2 ^ (u + 1) := by positivity
    zify at hk
    omega
  zify
  calc (2 : Int) * v' = 2 ^ (u + 2) * q := by
        rw [hhalf, pow_succ 2 (u + 1)]
        ring
    _ ≤ 2 ^ (u + 2) * 2 ^ j := by gcongr
    _ = 2 ^ (u + 2 + j) := (pow_add 2 (u + 2) j).symm

namespace IsNaf

variable {w v : Nat} {ds : List Int}

theorem nil (w : Nat) : IsNaf w 0 [] where
  value := rfl
  length_le := fun k _ => Nat.zero_le k
  digit := fun _ hd => by cases hd
  sparse := fun _ _ _ _ => Or.inl rfl
  zeros := fun _ _ _ _ => rfl

theorem even (h0 : v ≠ 0) (heven : v % 2 = 0) (h : IsNaf w (v / 2) ds) : IsNaf w v (0 :: ds) where
  value := by
    rw [value_cons, h.value]
    omega
  length_le := by
    intro k hk
    obtain ⟨k, rfl⟩ : ∃ j, k = j + 1 := by
      cases k with
      | zero => omega
      | succ k => exact ⟨k, rfl⟩
    rw [Nat.pow_succ] at hk
    exact Nat.succ_le_succ (h.length_le k (by omega))
  digit := by
    intro d hd hne
    rcases List.mem_cons.mp hd with rfl | hd
    · exact absurd rfl hne
    · exact h.digit d hd hne
  sparse := h.sparse.cons (Or.inl rfl)
  zeros := by
    intro k i hdvd hi
    cases i with
    | zero => rfl
    | succ i =>
      obtain ⟨k, rfl⟩ : ∃ j, k = j + 1 := ⟨k - 1, by omega⟩
      exact h.zeros k i (Nat.dvd_div_of_mul_dvd (by rwa [← Nat.pow_succ'])) (by omega)

/-- What is left of an odd number is a multiple of `2 ^ (w - 1)`, and not above a power of two that
is not below the number. -/
theorem rest {v' : Nat} (hw : 2 ≤ w) (hodd : v % 2 = 1)
    (hv' : (v : Int) = (v : Int).bmod (2 ^ w) + 2 * v') :
    2 ^ (w - 1) ∣ v' ∧ ∀ k, v ≤ 2 ^ k → 2 * v' ≤ 2 ^ k := by
  obtain ⟨u, rfl⟩ : ∃ u, w = u + 2 := ⟨w - 2, by omega⟩
  have hpow : (2 : Nat) ^ (u + 2) = 2 * 2 ^ (u + 1) := Nat.pow_succ'
  have hlo := Int.le_bmod (x := v) (Nat.two_pow_pos (u + 2))
  obtain ⟨q, hq⟩ := Int.dvd_self_sub_bmod (x := v) (m := 2 ^ (u + 2))
  generalize (v : Int).bmod (2 ^ (u + 2)) = d at *
  rw [hpow] at hlo hq
  push_cast at hlo hq
  have hhalf : (v' : Int) = 2 ^ (u + 1) * q := by linarith
  constructor
  · have hdvd : ((2 ^ (u + 1) : Nat) : Int) ∣ v' := ⟨q, by push_cast; exact hhalf⟩
    exact Int.natCast_dvd_natCast.mp hdvd
  · intro k hk
    by_cases hneg : d < 0
    · exact two_mul_le_of_neg hk hodd hneg (by omega) hv' hhalf
    · omega

theorem exists_rest (hw : 2 ≤ w) (v : Nat) :
    ∃ v' : Nat, (v : Int) = (v : Int).bmod (2 ^ w) + 2 * v' := by
  obtain ⟨u, rfl⟩ : ∃ u, w = u + 1 := ⟨w - 1, by omega⟩
  have hhi := Int.bmod_le (x := v) (Nat.two_pow_pos (u + 1))
  obtain ⟨q, hq⟩ := Int.dvd_self_sub_bmod (x := v) (m := 2 ^ (u + 1))
  generalize (v : Int).bmod (2 ^ (u + 1)) = d at *
  have hq0 : 0 ≤ q := by
    by_contra hneg
    have hle : ((2 ^ (u + 1) : Nat) : Int) * q ≤ ((2 ^ (u + 1) : Nat) : Int) * (-1) := by
      gcongr
      omega
    have hpos := Nat.two_pow_pos (u + 1)
    omega
  refine ⟨2 ^ u * q.toNat, ?_⟩
  push_cast at hq ⊢
  rw [Int.toNat_of_nonneg hq0, ← mul_assoc, ← pow_succ']
  linarith

theorem digit_odd (hw : 2 ≤ w) (hodd : v % 2 = 1) :
    (v : Int).bmod (2 ^ w) % 2 = 1 ∧ |(v : Int).bmod (2 ^ w)| < 2 ^ (w - 1) := by
  obtain ⟨u, rfl⟩ : ∃ u, w = u + 2 := ⟨w - 2, by omega⟩
  have hpow : (2 : Nat) ^ (u + 2) = 2 * 2 ^ (u + 1) := Nat.pow_succ'
  have hpos := Nat.two_pow_pos (u + 2)
  have hlo := Int.le_bmod (x := v) hpos
  have hhi := Int.bmod_lt (x := v) hpos
  obtain ⟨q, hq⟩ := Int.dvd_self_sub_bmod (x := v) (m := 2 ^ (u + 2))
  generalize (v : Int).bmod (2 ^ (u + 2)) = d at *
  rw [hpow] at hlo hhi hq
  push_cast at hlo hhi hq
  have heven : (2 : Int) ^ (u + 1) = 2 * 2 ^ u := pow_succ' 2 u
  have hdodd : d % 2 = 1 := by
    have hmul : (2 : Int) * 2 ^ (u + 1) * q = 2 * (2 ^ (u + 1) * q) := by ring
    omega
  rw [show u + 2 - 1 = u + 1 from rfl]
  exact ⟨hdodd, abs_lt.mpr (by omega)⟩

theorem odd {v' : Nat} (hw : 2 ≤ w) (hodd : v % 2 = 1)
    (hv' : (v : Int) = (v : Int).bmod (2 ^ w) + 2 * v') (h : IsNaf w v' ds) :
    IsNaf w v ((v : Int).bmod (2 ^ w) :: ds) where
  value := by rw [value_cons, h.value, ← hv']
  length_le := by
    intro k hk
    obtain ⟨k, rfl⟩ : ∃ j, k = j + 1 := by
      cases k with
      | zero => omega
      | succ k => exact ⟨k, rfl⟩
    rw [Nat.pow_succ] at hk
    exact Nat.succ_le_succ (h.length_le k ((rest hw hodd hv').2 k (by omega)))
  digit := by
    intro x hx hne
    rcases List.mem_cons.mp hx with rfl | hx
    · exact digit_odd hw hodd
    · exact h.digit x hx hne
  sparse := by
    apply h.sparse.cons (Or.inr ?_)
    intro i hi
    exact h.zeros (w - 1) i (rest hw hodd hv').1 (by omega)
  zeros := by
    intro k i hdvd hi
    have htwo : 2 ∣ v := (dvd_pow_self 2 (by omega)).trans hdvd
    omega

end IsNaf

end SignedDigits
