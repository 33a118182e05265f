import Liblcb.BigNum.ModExp
import Liblcb.BigNum.Sqrt
import Liblcb.Lib.SqrtMod
import Mathlib.NumberTheory.LegendreSymbol.QuadraticReciprocity

/-!
# Modular square roots

`bn_mod_legendre` and the three algorithms of `bn_mod_sqrt` on an odd prime.  The third one needs a
nonresidue, and looks at as many numbers as the residue has bits; when all of them are residues it
gives up.
-/

namespace BigNum

open Limbs StateErr BnOps SqrtMod

namespace ByValue

variable {a c k m q : Nat} {σ : Type}

/-! ## Residues -/

theorem cast_pred (hm : 1 ≤ m) : ((m - 1 : Nat) : ZMod m) = -1 := by
  rw [Nat.cast_sub hm, ZMod.natCast_self, Nat.cast_one, zero_sub]

theorem cast_eq_iff {x y : Nat} (hx : x < m) (hy : y < m) : (x : ZMod m) = y ↔ x = y := by
  rw [ZMod.natCast_eq_natCast_iff', Nat.mod_eq_of_lt hx, Nat.mod_eq_of_lt hy]

theorem cast_pow_mod (x e : Nat) : ((x ^ e % m : Nat) : ZMod m) = (x : ZMod m) ^ e := by
  rw [ZMod.natCast_mod, Nat.cast_pow]

theorem bnSubDigit_one (hc : c ≠ 0) (ha0 : a ≠ 0) (ha : a < 2 ^ (64 * c)) :
    bnSubDigit 1 (⟨c, a⟩ : Num) = .ok (some 0) ⟨c, a - 1⟩ := by
  rw [bnSubDigit_val (by decide) hc, show (1 : Digit).toNat = 1 from rfl, if_neg (by omega),
    show a + 2 ^ (64 * c) - 1 = a - 1 + 2 ^ (64 * c) by omega, Nat.add_mod_right,
    Nat.mod_eq_of_lt (by omega)]

/-- The sizes of a modulus and of a number that is raised to powers below it. -/
structure Room (c q m : Nat) : Prop where
  modulus : limbCount 64 m ≤ q
  count : q ≤ c
  product : 2 * limbCount 64 m ≤ c

/-- The number `bn_mod_sqrt` looks at after `k` rounds. -/
def candidate (m a : Nat) : Nat → Nat
  | 0 => a
  | k + 1 => candidate m a k ^^^ m / 2 ^ (k + 1)

theorem bitCount_candidate (ha : a < m) (k : Nat) : bitCount (candidate m a k) ≤ bitCount m := by
  have hm := (Bn.bitCount_lt_iff m _).mp le_rfl
  rw [Bn.bitCount_lt_iff]
  induction k with
  | zero => exact ha.trans hm
  | succ k ih => exact Nat.xor_lt_two_pow ih ((Nat.div_le_self m _).trans_lt hm)

theorem lowDigit_and_eq {n : Nat} (hn : n ≤ 64) {mask r : Digit} (hmask : mask.toNat = 2 ^ n - 1) :
    lowDigit (⟨q, m⟩ : Num) &&& mask = r ↔ m % 2 ^ n = r.toNat := by
  rw [lowDigit_eq, ← BitVec.toNat_inj, BitVec.toNat_and, BitVec.toNat_ofNat, hmask,
    Nat.and_two_pow_sub_one_eq_mod, Nat.mod_mod_of_dvd _ (Nat.pow_dvd_pow 2 hn)]

theorem sqrtTonelli_bits (ha : a < m) :
    64 + max (digits (⟨c, a⟩ : Num)) (digits (⟨q, m⟩ : Num)) * 2 * 64 =
      (1 + 2 * limbCount 64 m) * 64 := by
  have hla := limbCount_mono (w := 64) (by decide) (Nat.le_of_lt ha)
  rw [digits_eq, digits_eq, Nat.max_eq_right hla]
  ring

section

variable [hp : Fact m.Prime]

theorem Room.count_ne_zero (h : Room c q m) : q ≠ 0 := by
  have hm := hp.out.one_lt
  have hl : limbCount 64 m ≠ 0 := fun h0 => by
    rw [limbCount_eq_zero.mp h0] at hm
    omega
  have := h.modulus
  omega

theorem bnModLegendre_eq (J : Junk) (hodd : m % 2 = 1) (hroom : Room c q m) (hred : Reduces c m a)
    (s : σ) : bnModLegendre J (⟨c, a⟩ : Num) ⟨q, m⟩ s = .ok (legendreSym m a) s := by
  have hm1 := hp.out.one_lt
  have hq0 := hroom.count_ne_zero
  have hcap := lt_cap_of_limbCount_le hroom.modulus
  have hisodd : bnIsOdd (⟨q, m⟩ : Num) = true := by simpa using hodd
  have hcast : ((a : Int) : ZMod m) = (a % m : Nat) := by
    rw [ZMod.natCast_mod, Int.cast_natCast]
  have hlt := Nat.mod_lt a (show m > 0 by omega)
  rw [bnModLegendre, ite_apply_pos hisodd, exec_bind_of_ok (bnAssignInit_val _ _),
    exec_bind_of_ok (bnMod_eq (J 1) (by omega) hred), bnIsZero_eq, bnIsOne_eq]
  generalize a % m = x at *
  by_cases h0 : x = 0
  · have hsym : legendreSym m a = 0 := by
      rw [legendreSym.eq_zero_iff, hcast, h0, Nat.cast_zero]
    rw [ite_apply_pos (by simpa using h0), pure_apply, hsym]
  by_cases h1 : x = 1
  · have hsym : legendreSym m a = 1 := by
      rw [legendreSym.eq_one_iff m (by rw [hcast, h1, Nat.cast_one]; exact one_ne_zero), hcast, h1,
        Nat.cast_one]
      exact IsSquare.one
    rw [ite_apply_neg (by simpa using h0), ite_apply_pos (by simpa using h1), pure_apply, hsym]
  have hx0 : ((a : Int) : ZMod m) ≠ 0 := by
    rw [hcast, ← Nat.cast_zero, Ne, cast_eq_iff hlt (by omega)]
    exact h0
  have hpow : ((x ^ ((m - 1) / 2) % m : Nat) : ZMod m) = legendreSym m a := by
    rw [cast_pow_mod, legendreSym.eq_pow, hcast, show (m - 1) / 2 = m / 2 by omega]
  have hwlt := Nat.mod_lt (x ^ ((m - 1) / 2)) (show m > 0 by omega)
  rw [ite_apply_neg (by simpa using h0), ite_apply_neg (by simpa using h1),
    exec_bind_of_ok (bnAssignInit_val _ _),
    exec_bind_of_ok (bnSubDigit_one hq0 (by omega) hcap), exec_bind_of_ok (bnAssignInit_val _ _),
    exec_bind_of_ok (bnRShift_one _),
    exec_bind_of_ok (bnModExp_eq (J 4) hm1 hlt hroom.count hroom.product), pure_apply, bnCmp_eq,
    bnIsZero_eq]
  simp only [Nat.compare_eq_eq]
  generalize x ^ ((m - 1) / 2) % m = w at *
  rcases legendreSym.eq_one_or_neg_one m hx0 with hsym | hsym
  · -- the power is one
    rw [hsym, Int.cast_one, ← Nat.cast_one, cast_eq_iff hwlt hm1] at hpow
    rw [hsym, hpow, if_neg (by omega)]
    rfl
  · rw [hsym, Int.cast_neg, Int.cast_one, ← cast_pred (Nat.le_of_lt hm1),
      cast_eq_iff hwlt (by omega)] at hpow
    rw [hsym, if_pos hpow.symm]

theorem isNonresidue_eq (J : Junk) (hodd : m % 2 = 1) (hroom : Room c q m)
    (hred : Reduces c m a) (s : σ) :
    isNonresidue J (⟨c, a⟩ : Num) ⟨q, m⟩ s = .ok (decide (legendreSym m a = -1)) s := by
  rw [isNonresidue, bnModLegendre_eq J hodd hroom hred, fold_ok]
  congr 1

theorem legendreSym_iff (a : Nat) : legendreSym m a = -1 ↔ ¬IsSquare (a : ZMod m) := by
  rw [legendreSym.eq_neg_one_iff, Int.cast_natCast]

/-! ## The search for a nonresidue -/

/-- The outcome of the search over the rounds behind `k`. -/
def Searched (c m a k n : Nat) : Option (Num × Num) → Prop
  | none => ∀ j, k < j → j ≤ k + n → IsSquare (candidate m a j : ZMod m)
  | some r => r.1.count = c ∧ ∃ j, k < j ∧ j ≤ k + n ∧ ¬IsSquare (candidate m a j : ZMod m) ∧
      r.2 = ⟨c, candidate m a j⟩

theorem nonresidueLoop_eq (J : Junk) (hodd : m % 2 = 1) (hroom : Room c q m)
    (hc : limbCount 64 m < c) (ha : a < m) (n k : Nat) (s : σ) :
    ∃ r, nonresidueLoop J (⟨q, m⟩ : Num) n ⟨c, m / 2 ^ k⟩ ⟨c, candidate m a k⟩ s = .ok r s ∧
      Searched c m a k n r := by
  induction n generalizing k with
  | zero =>
    refine ⟨none, rfl, fun j hj hj' => ?_⟩
    omega
  | succ n ih =>
    have hbits := bitCount_candidate ha (k + 1)
    have hlimb := limbCount_le_of_bits hbits
    have hshift : limbCount 64 (m / 2 ^ (k + 1)) ≤ c :=
      (limbCount_mono (by decide) (Nat.div_le_self m _)).trans (Nat.le_of_lt hc)
    have hxor : bnXor (.val (⟨c, m / 2 ^ (k + 1)⟩ : Num)) (⟨c, candidate m a k⟩ : Num) =
        .ok () ⟨c, candidate m a (k + 1)⟩ := if_neg (not_lt.mpr hshift)
    have hred : Reduces c m (candidate m a (k + 1)) := Or.inr (Or.inl (by omega))
    have hhalf : m / 2 ^ k / 2 = m / 2 ^ (k + 1) := by
      rw [Nat.div_div_eq_div_mul, Nat.pow_succ]
    rw [nonresidueLoop, exec_bind_of_ok (bnRShift_one _), hhalf, exec_bind_of_ok hxor,
      bind_of_ok (isNonresidue_eq (J n) hodd hroom hred s)]
    by_cases hsym : legendreSym m (candidate m a (k + 1)) = -1
    · refine ⟨some (⟨c, m / 2 ^ (k + 1)⟩, ⟨c, candidate m a (k + 1)⟩), ?_, rfl, k + 1, by omega,
        by omega, (legendreSym_iff _).mp hsym, rfl⟩
      rw [ite_apply_pos (by simpa using hsym), pure_apply]
    · obtain ⟨r, hrun, hr⟩ := ih (k + 1)
      refine ⟨r, ?_, ?_⟩
      · rw [ite_apply_neg (by simpa using hsym), hrun]
      · cases r with
        | none =>
          intro j hj hj'
          by_cases hjk : j = k + 1
          · rw [hjk]
            exact not_not.mp ((legendreSym_iff _).not.mp hsym)
          · exact hr j (by omega) (by omega)
        | some p =>
          obtain ⟨hcount, j, hj, hj', hsq, hval⟩ := hr
          exact ⟨hcount, j, by omega, by omega, hsq, hval⟩

/-! ## The roots -/

/-- A square root of `a` below `m`. -/
def IsRoot (m a x : Nat) : Prop := x < m ∧ (x : ZMod m) ^ 2 = a

theorem succ_lt_cap (hm : limbCount 64 m ≤ q) (hq0 : q ≠ 0) : m + 1 < 2 ^ (64 * q) := by
  have hlt := lt_cap_of_limbCount_le hm
  have hcap : 2 ^ 64 ≤ 2 ^ (64 * q) := Nat.pow_le_pow_right (by decide) (by omega)
  -- the last number before the capacity is a multiple of three
  have hthree : 2 ^ (64 * q) % 3 = 1 := by
    rw [show 64 * q = 2 * (32 * q) by ring, Nat.pow_mul, Nat.pow_mod]
    simp
  by_contra hge
  have hdvd : 3 ∣ m := by omega
  have := (Nat.prime_dvd_prime_iff_eq Nat.prime_three hp.out).mp hdvd
  omega

theorem bnAddDigit_one (hc : c ≠ 0) (ha : a + 1 < 2 ^ (64 * c)) :
    bnAddDigit 1 (⟨c, a⟩ : Num) =
      .ok (some (BitVec.ofNat 64 ((a + 1) / 2 ^ (64 * c)))) ⟨c, a + 1⟩ := by
  rw [bnAddDigit_val (by decide) hc, show (1 : Digit).toNat = 1 from rfl, Nat.mod_eq_of_lt ha]

theorem sqrt34_eq (J : Junk) (h34 : m % 4 = 3) (hroom : Room c q m) (ha : a < m)
    (hres : (a : ZMod m) ^ (m / 2) = 1) :
    ∃ x, sqrt34 J (⟨q, m⟩ : Num) ⟨c, a⟩ = .ok () ⟨c, x⟩ ∧ IsRoot m a x := by
  have hm1 := hp.out.one_lt
  have hq0 := hroom.count_ne_zero
  obtain ⟨j, rfl⟩ : ∃ j, m = 4 * j + 3 := ⟨m / 4, by omega⟩
  rw [show (4 * j + 3) / 2 = 2 * j + 1 by omega] at hres
  refine ⟨a ^ (j + 1) % (4 * j + 3), ?_, Nat.mod_lt _ (by omega), ?_⟩
  · rw [sqrt34, exec_bind_of_ok (bnAssignInit_val _ _),
      exec_bind_of_ok (bnAddDigit_one hq0 (succ_lt_cap hroom.modulus hq0)),
      exec_bind_of_ok (bnRShift_two _), show (4 * j + 3 + 1) / 4 = j + 1 by omega,
      bnModExp_eq (J 1) hm1 ha hroom.count hroom.product]
  · rw [cast_pow_mod, sq_pow_of_odd hres]

theorem bnRShift_three (a : Nat) : bnRShift 3 (⟨c, a⟩ : Num) = .ok () ⟨c, a / 8⟩ :=
  bnRShift_val (by decide) a

theorem two_pow_half (h58 : m % 8 = 5) : (2 : ZMod m) ^ (m / 2) = -1 := by
  have hne : (2 : ZMod m) ≠ 0 := by
    have hm1 := hp.out.one_lt
    have h2 := cast_eq_iff (m := m) (x := 2) (y := 0) (by omega) (by omega)
    rw [Nat.cast_ofNat, Nat.cast_zero] at h2
    exact fun h => absurd (h2.mp h) (by decide)
  have hnsq : ¬IsSquare (2 : ZMod m) := by
    rw [ZMod.exists_sq_eq_two_iff (by omega)]
    omega
  exact (ZMod.pow_div_two_eq_neg_one_or_one m hne).resolve_left
    fun h => hnsq ((ZMod.euler_criterion m hne).mpr h)

theorem sqrt58_eq (J : Junk) (h58 : m % 8 = 5) (hroom : Room c q m) (ha : a < m)
    (hres : (a : ZMod m) ^ (m / 2) = 1) :
    ∃ x, sqrt58 J (⟨q, m⟩ : Num) ⟨c, a⟩ = .ok () ⟨c, x⟩ ∧ IsRoot m a x := by
  have hm1 := hp.out.one_lt
  have hm0 : 0 < m := by omega
  have hc := hroom.product
  have hc0 : limbCount 64 m < c := by
    have hl : limbCount 64 m ≠ 0 := fun h => by
      have := limbCount_eq_zero.mp h
      omega
    omega
  have htwo := two_pow_half h58
  have hhalf : m / 2 = 2 + m / 8 * 4 := by omega
  -- the numbers of the source
  generalize hu : a * (2 : Digit).toNat % m = u
  have hult : u < m := hu ▸ Nat.mod_lt _ hm0
  generalize hv : u ^ (m / 8) % m = v
  have hvlt : v < m := hv ▸ Nat.mod_lt _ hm0
  generalize hw : u * v % m = w
  have hwlt : w < m := hw ▸ Nat.mod_lt _ hm0
  generalize hi : w * v % m = i
  have hilt : i < m := hi ▸ Nat.mod_lt _ hm0
  have hcu : (u : ZMod m) = 2 * a := by
    rw [← hu, ZMod.natCast_mod, Nat.cast_mul, mul_comm]
    rfl
  have hcv : (v : ZMod m) = (u : ZMod m) ^ (m / 8) := by rw [← hv, cast_pow_mod]
  have hci : (i : ZMod m) = 2 * a * (v : ZMod m) ^ 2 := by
    rw [← hi, ZMod.natCast_mod, Nat.cast_mul, ← hw, ZMod.natCast_mod, Nat.cast_mul, hcu]
    ring
  have hsq : (i : ZMod m) ^ 2 = -1 := by
    calc (i : ZMod m) ^ 2 = (2 * a) ^ 2 * ((2 * a) ^ (m / 8)) ^ 4 := by rw [hci, hcv, hcu]; ring
      _ = (2 : ZMod m) ^ (m / 2) * a ^ (m / 2) := by rw [← mul_pow, hhalf, pow_add, pow_mul]
      _ = -1 := by rw [htwo, hres, mul_one]
  have hi0 : i ≠ 0 := by
    rintro rfl
    rw [Nat.cast_zero, zero_pow (by decide), eq_comm, neg_eq_zero] at hsq
    exact one_ne_zero hsq
  have hicap : i < 2 ^ (64 * c) := lt_cap_of_limbCount_le (limbCount_le_of_lt hilt (by omega))
  refine ⟨a * v % m * (i - 1) % m, ?_, Nat.mod_lt _ hm0, ?_⟩
  · rw [sqrt58, bind_of_ok (get_apply _), exec_bind_of_ok (bnAssignInit_val _ _),
      exec_bind_of_ok (bnRShift_three _), exec_bind_of_ok (bnAssignInit_val _ _),
      exec_bind_of_ok (bnModMultDigit_eq (J 2) 2 ha hc0), hu,
      exec_bind_of_ok (bnModExp_eq (J 3) hm1 hult hroom.count hc), hv,
      exec_bind_of_ok (bnAssignInit_val _ _),
      exec_bind_of_ok (bnModMultDigit_eq (J 4) 2 ha hc0), hu,
      exec_bind_of_ok (bnModMult_eq (J 5) hult hvlt hc), hw,
      exec_bind_of_ok (bnModMult_eq (J 6) hwlt hvlt hc), hi,
      exec_bind_of_ok (bnSubDigit_one (by omega) hi0 hicap),
      bind_of_ok (bnModMult_eq (J 7) ha hvlt hc),
      bnModMult_eq (J 8) (Nat.mod_lt _ hm0) (by omega) hc]
  · rw [ZMod.natCast_mod, Nat.cast_mul, ZMod.natCast_mod, Nat.cast_mul,
      Nat.cast_sub (by omega), Nat.cast_one]
    exact sq_atkin hci hsq

/-! ## Tonelli and Shanks -/

/-- One round of the correction, and from it the whole loop. -/
theorem tonelliLoop_eq (J : Junk) {d inv : Nat} (hroom : Room c q m) (hroom' : Room d q m)
    (hinv : inv < m) (hinva : (inv : ZMod m) * a = 1) (n x z tm t : Nat) (hn : n ≤ 64 * d)
    (hx : x < m) (hz : bitCount z ≤ bitCount m) (h : Tonelli (inv : ZMod m) x z n) :
    ∃ x', tonelliLoop J (⟨q, m⟩ : Num) ⟨q, m - 1⟩ ⟨c, inv⟩ n ⟨d, tm⟩ ⟨d, t⟩ ⟨d, z⟩ ⟨c, x⟩ =
      .ok () ⟨c, x'⟩ ∧ IsRoot m a x' := by
  have hm1 := hp.out.one_lt
  have hm0 : 0 < m := by omega
  induction n generalizing x z tm t with
  | zero => exact ⟨x, rfl, hx, h.done hinva⟩
  | succ n ih =>
    have hd := hroom'.product
    have hxd : limbCount 64 x ≤ d := limbCount_le_of_lt hx (by omega)
    have hsquare : bnModSquare (J (5 * n)) (.val ⟨q, m⟩) (⟨d, x⟩ : Num) =
        .ok () ⟨d, x * x % m⟩ := bnModSquare_eq _ hx hd
    have hzz : bnModSquare (J (5 * n + 4)) (.val ⟨q, m⟩) (⟨d, z⟩ : Num) =
        .ok () ⟨d, z * z % m⟩ :=
      bnModMult_of_fits _ .self (Nat.pos_iff_ne_zero.mp hm0) rfl (modMultFits_of_bits hz hz hd)
    have hzbits : bitCount (z * z % m) ≤ bitCount m := bitCount_le_of_lt (Nat.mod_lt _ hm0)
    have hzcast : ((z * z % m : Nat) : ZMod m) = (z : ZMod m) ^ 2 := by
      rw [ZMod.natCast_mod, Nat.cast_mul, pow_two]
    -- half the order of the error
    generalize hw : (x * x % m * inv % m) ^ 2 ^ n % m = w
    have hwlt : w < m := hw ▸ Nat.mod_lt _ hm0
    have hwcast : (w : ZMod m) = ((x : ZMod m) ^ 2 * inv) ^ 2 ^ n := by
      rw [← hw, cast_pow_mod, ZMod.natCast_mod, Nat.cast_mul, ZMod.natCast_mod, Nat.cast_mul,
        pow_two (x : ZMod m)]
    rw [tonelliLoop, exec_bind_of_ok (bnAssign2exp_eq (by omega)), bind_of_ok (get_apply _),
      exec_bind_of_ok (bnAssign_val hxd), exec_bind_of_ok hsquare,
      exec_bind_of_ok (bnModMult_eq _ (Nat.mod_lt _ hm0) hinv hd),
      exec_bind_of_ok (bnModExp_eq _ hm1 (Nat.mod_lt _ hm0) hroom'.count hd), hw]
    by_cases hcmp : w = m - 1
    · have hneg : ((x : ZMod m) ^ 2 * inv) ^ 2 ^ n = -1 := by
        rw [← hwcast, hcmp, cast_pred (Nat.le_of_lt hm1)]
      have hmult : bnModMult (J (5 * n + 3)) (.val ⟨d, z⟩) (.val ⟨q, m⟩) (⟨c, x⟩ : Num) =
          .ok () ⟨c, x * z % m⟩ :=
        bnModMult_of_fits _ _ (Nat.pos_iff_ne_zero.mp hm0) rfl
          (modMultFits_of_bits (bitCount_le_of_lt hx) hz hroom.product)
      have hnext : Tonelli (inv : ZMod m) (x * z % m : Nat) (z * z % m : Nat) n := by
        rw [hzcast, ZMod.natCast_mod, Nat.cast_mul]
        exact h.correct hneg
      have hiff : bnCmp (⟨d, w⟩ : Num) ⟨q, m - 1⟩ = .eq := by
        rw [bnCmp_eq, Nat.compare_eq_eq]
        exact hcmp
      rw [bind_of_ok ((onlyIf_apply _ _ _).trans ((if_pos hiff).trans hmult)),
        exec_bind_of_ok hzz]
      exact ih _ _ _ _ (by omega) (Nat.mod_lt _ hm0) hzbits hnext
    · have hone : ((x : ZMod m) ^ 2 * inv) ^ 2 ^ n = 1 := by
        refine h.half.resolve_right fun hneg => hcmp ?_
        rw [← hwcast, ← cast_pred (Nat.le_of_lt hm1), cast_eq_iff hwlt (by omega)] at hneg
        exact hneg
      have hnext : Tonelli (inv : ZMod m) (x : ZMod m) (z * z % m : Nat) n := by
        rw [hzcast]
        exact h.keep hone
      have hiff : ¬bnCmp (⟨d, w⟩ : Num) ⟨q, m - 1⟩ = .eq := by
        rw [bnCmp_eq, Nat.compare_eq_eq]
        exact hcmp
      rw [bind_of_ok ((onlyIf_apply _ _ _).trans (if_neg hiff)), exec_bind_of_ok hzz]
      exact ih _ _ _ _ (by omega) hx hzbits hnext

/-- The room of the locals of the third algorithm, one digit more than two numbers. -/
structure TonelliRoom (q m : Nat) : Prop where
  locals : limbCount 64 m ≤ 15
  modulus : q ≤ 1 + 2 * limbCount 64 m

theorem bnDiv_pow (J : Junk) {v s u : Nat} (hv : v = u * 2 ^ s) (hv0 : v ≠ 0)
    (hc : limbCount 64 v < c) :
    bnDiv J (.val ⟨k, 2 ^ s⟩) .null (⟨c, v⟩ : Num) = .ok none ⟨c, u⟩ := by
  have hpos := Nat.two_pow_pos s
  have hu0 : u ≠ 0 := by
    rintro rfl
    omega
  by_cases heq : v = 2 ^ s
  · have hu : u = 1 := by
      rw [heq] at hv
      exact (Nat.eq_of_mul_eq_mul_right hpos (by rw [Nat.one_mul]; exact hv)).symm
    rw [hu]
    exact (if_neg (show ¬2 ^ s = 0 by omega)).trans (if_pos heq)
  · have hle : 2 ^ s ≤ v := hv ▸ Nat.le_mul_of_pos_left _ (Nat.pos_of_ne_zero hu0)
    have hdiv : v / 2 ^ s = u := by rw [hv, Nat.mul_div_cancel _ hpos]
    rw [← hdiv]
    exact bnDiv_null J (by omega) (by omega) (by omega)

theorem pow_half_of_not_isSquare {b : ZMod m} (h : ¬IsSquare b) : b ^ (m / 2) = -1 := by
  have hne : b ≠ 0 := fun h0 => h (h0 ▸ IsSquare.zero)
  exact (ZMod.pow_div_two_eq_neg_one_or_one m hne).resolve_left
    fun hone => h ((ZMod.euler_criterion m hne).mpr hone)

/-- The third algorithm behind its search, which has found the nonresidue `b`. -/
theorem sqrtTonelli_found (J : Junk) (hodd : m % 2 = 1) (hroom : Room c q m)
    (hmore : TonelliRoom q m) (ha0 : a ≠ 0) (ha : a < m) (hres : (a : ZMod m) ^ (m / 2) = 1)
    {b : Nat} (hb : bitCount b ≤ bitCount m) (hnon : ¬IsSquare (b : ZMod m)) {tm : Num}
    (htm : tm.count = 1 + 2 * limbCount 64 m)
    (hsearch : nonresidueLoop (J 3) (⟨q, m⟩ : Num) (bitCount a) ⟨1 + 2 * limbCount 64 m, m⟩
      ⟨1 + 2 * limbCount 64 m, a⟩ (⟨c, a⟩ : Num) =
        .ok (some (tm, ⟨1 + 2 * limbCount 64 m, b⟩)) ⟨c, a⟩) :
    ∃ x, sqrtTonelli J (⟨q, m⟩ : Num) ⟨c, a⟩ = .ok () ⟨c, x⟩ ∧ IsRoot m a x := by
  have hm1 := hp.out.one_lt
  have hq0 := hroom.count_ne_zero
  have hcap := lt_cap_of_limbCount_le hroom.modulus
  have hc := hroom.product
  have hlocals := hmore.locals
  have hbits := sqrtTonelli_bits (c := c) (q := q) ha
  have hroom' : Room (1 + 2 * limbCount 64 m) q m := ⟨hroom.modulus, hmore.modulus, by omega⟩
  generalize hd : 1 + 2 * limbCount 64 m = d at *
  have hinit := bnInit_mul (show d ≠ 0 by omega) (show d ≤ 32 by omega)
  have hla : limbCount 64 a ≤ d := limbCount_le_of_lt ha (by omega)
  have hlm : limbCount 64 (m - 1) ≤ limbCount 64 m := limbCount_mono (by decide) (Nat.sub_le m 1)
  -- `m - 1 = (2 * k + 1) * 2 ^ (s + 1)`
  obtain ⟨u, huodd, hu⟩ := bnCtz_spec (c := q) (show m - 1 ≠ 0 by omega)
  generalize hs' : bnCtz (⟨q, m - 1⟩ : Num) = s' at hu
  obtain ⟨k, rfl⟩ : ∃ k, u = 2 * k + 1 := ⟨u / 2, by omega⟩
  obtain ⟨s, rfl⟩ : ∃ s, s' = s + 1 := by
    cases s' with
    | zero => omega
    | succ s => exact ⟨s, rfl⟩
  have hhalf : m / 2 = (2 * k + 1) * 2 ^ s := by
    rw [Nat.pow_succ, ← Nat.mul_assoc] at hu
    omega
  have hsd : s + 1 < 64 * d := by
    have hle : 2 ^ (s + 1) ≤ m - 1 := hu ▸ Nat.le_mul_of_pos_left _ (by omega)
    have hlt : 2 ^ (s + 1) < 2 ^ (64 * d) :=
      hle.trans_lt (lt_cap_of_limbCount_le (by omega))
    exact (Nat.pow_lt_pow_iff_right (by decide)).mp hlt
  have hklt : 2 * k + 1 + 1 < 2 ^ (64 * d) := by
    have hle : 2 * k + 1 ≤ m - 1 := hu ▸ Nat.le_mul_of_pos_right _ (Nat.two_pow_pos _)
    have hmd : m < 2 ^ (64 * limbCount 64 m) := lt_pow_limbCount (by decide) m
    have hpow : 2 * 2 ^ (64 * limbCount 64 m) ≤ 2 ^ (64 * d) := by
      rw [← Nat.pow_succ']
      exact Nat.pow_le_pow_right (by decide) (by omega)
    omega
  obtain ⟨z, hz, hzbits, hzmod⟩ := bnModExp_wide (r := d) (e := 2 * k + 1) (J 6) hm1
    hroom'.count hq0 hroom'.product hb
  have hcop : Nat.Coprime a m := (Nat.coprime_of_lt_prime ha0 ha hp.out).symm
  obtain ⟨inv, hinv, hinvlt, hinva⟩ := bnModInv_eq (q := q) (J 8) hodd (by omega) ha0 ha hcop
    (show limbCount 64 m ≤ c by omega)
  have hstate : Tonelli (inv : ZMod m) (a ^ (k + 1) % m : Nat) z s := by
    have hzcast : (z : ZMod m) = (b : ZMod m) ^ (2 * k + 1) := by
      rw [← Nat.cast_pow]
      exact (ZMod.natCast_eq_natCast_iff _ _ _).mpr hzmod
    rw [cast_pow_mod, hzcast]
    apply Tonelli.start hinva
    · rw [← hhalf, hres]
    · rw [← hhalf, pow_half_of_not_isSquare hnon]
  obtain ⟨x, hloop, hx⟩ := tonelliLoop_eq (J 10) hroom hroom' hinvlt hinva s (a ^ (k + 1) % m) z
    (2 ^ (s + 1)) (k + 1) (by omega) (Nat.mod_lt _ (by omega)) hzbits hstate
  refine ⟨x, ?_, hx⟩
  rw [sqrtTonelli, bind_of_ok (get_apply _), hbits, exec_bind_of_ok (hinit _),
    exec_bind_of_ok (hinit _), exec_bind_of_ok (hinit _), exec_bind_of_ok (bnAssign_val hla),
    exec_bind_of_ok (bnAssign_val (show limbCount 64 m ≤ d by omega)), bnCalcBits_eq,
    bind_of_ok hsearch, bind_of_ok (orThrow_some _ _ _), exec_bind_of_ok (bnAssignInit_val _ _),
    exec_bind_of_ok (bnSubDigit_one hq0 (by omega) hcap), hs',
    show tm = ⟨d, tm.val⟩ by rw [← htm], exec_bind_of_ok (bnAssign2exp_eq hsd),
    exec_bind_of_ok (bnAssign_val (show limbCount 64 (m - 1) ≤ d by omega)),
    exec_bind_of_ok (bnDiv_pow (J 5) hu (by omega) (by omega)), exec_bind_of_ok hz,
    exec_bind_of_ok (bnAssignInit_val _ _), exec_bind_of_ok hinv,
    exec_bind_of_ok (bnAddDigit_one (by omega) hklt), exec_bind_of_ok (bnRShift_one _),
    show (2 * k + 1 + 1) / 2 = k + 1 by omega,
    bind_of_ok (bnModExp_eq (J 9) hm1 ha hroom.count hc), Nat.add_sub_cancel]
  exact hloop

theorem sqrtTonelli_eq (J : Junk) (hodd : m % 2 = 1) (hroom : Room c q m) (hmore : TonelliRoom q m)
    (ha0 : a ≠ 0) (ha : a < m) (hres : (a : ZMod m) ^ (m / 2) = 1) :
    ((∃ j, 0 < j ∧ j ≤ bitCount a ∧ ¬IsSquare (candidate m a j : ZMod m)) →
      ∃ x, sqrtTonelli J (⟨q, m⟩ : Num) ⟨c, a⟩ = .ok () ⟨c, x⟩ ∧ IsRoot m a x) ∧
    ((∀ j, 0 < j → j ≤ bitCount a → IsSquare (candidate m a j : ZMod m)) →
      sqrtTonelli J (⟨q, m⟩ : Num) ⟨c, a⟩ = .error (.code (-1)) ⟨c, a⟩) := by
  have hla := limbCount_mono (w := 64) (by decide) (Nat.le_of_lt ha)
  have hlocals := hmore.locals
  have hroom' : Room (1 + 2 * limbCount 64 m) q m := ⟨hroom.modulus, hmore.modulus, by omega⟩
  obtain ⟨r, hsearch, hr⟩ := nonresidueLoop_eq (J 3) hodd hroom' (by omega) ha (bitCount a) 0
    (⟨c, a⟩ : Num)
  rw [Nat.pow_zero, Nat.div_one, show candidate m a 0 = a from rfl] at hsearch
  cases r with
  | some r =>
    obtain ⟨tm, b⟩ := r
    obtain ⟨hcount, j, hj, hj', hsq, rfl⟩ := hr
    constructor
    · intro _
      exact sqrtTonelli_found J hodd hroom hmore ha0 ha hres (bitCount_candidate ha j) hsq hcount
        hsearch
    · intro hall
      exact absurd (hall j hj (by omega)) hsq
  | none =>
    constructor
    · rintro ⟨j, hj, hj', hsq⟩
      exact absurd (hr j hj (by omega)) hsq
    · intro _
      have hinit := bnInit_mul (show 1 + 2 * limbCount 64 m ≠ 0 by omega) (by omega)
      rw [sqrtTonelli, bind_of_ok (get_apply _), sqrtTonelli_bits ha, exec_bind_of_ok (hinit _),
        exec_bind_of_ok (hinit _), exec_bind_of_ok (hinit _),
        exec_bind_of_ok (bnAssign_val (by omega)), exec_bind_of_ok (bnAssign_val (by omega)),
        bnCalcBits_eq, bind_of_ok hsearch, bind_of_error (orThrow_none _ _)]

/-! ## The function -/

/-- The choice of the algorithm in `bn_mod_sqrt`. -/
def chooseRoot (J : Junk) (m : Num) : BnM Num Unit :=
  if lowDigit m &&& 3 = 3 then sqrt34 J m
  else if lowDigit m &&& 7 = 5 then sqrt58 J m
  else if lowDigit m &&& 3 = 1 then sqrtTonelli J m
  else throw (.code (-1))

theorem chooseRoot_bind (J : Junk) (m : Num) (f : Unit → BnM Num Unit) :
    chooseRoot J m >>= f =
      if lowDigit m &&& 3 = 3 then sqrt34 J m >>= f
      else if lowDigit m &&& 7 = 5 then sqrt58 J m >>= f
      else if lowDigit m &&& 3 = 1 then sqrtTonelli J m >>= f
      else throw (.code (-1)) >>= f := by
  unfold chooseRoot
  split_ifs <;> rfl

/-- The numbers the search looks at hold a nonresidue. -/
def SearchFinds (m a : Nat) : Prop :=
  ∃ j, 0 < j ∧ j ≤ bitCount a ∧ ¬IsSquare (candidate m a j : ZMod m)

theorem chooseRoot_eq (J : Junk) (hodd : m % 2 = 1) (hroom : Room c q m)
    (hmore : m % 8 = 1 → TonelliRoom q m) (ha0 : a ≠ 0) (ha : a < m)
    (hres : (a : ZMod m) ^ (m / 2) = 1) :
    (m % 8 ≠ 1 ∨ SearchFinds m a →
      ∃ x, chooseRoot J (⟨q, m⟩ : Num) ⟨c, a⟩ = .ok () ⟨c, x⟩ ∧ IsRoot m a x) ∧
    (m % 8 = 1 → ¬SearchFinds m a →
      chooseRoot J (⟨q, m⟩ : Num) ⟨c, a⟩ = .error (.code (-1)) ⟨c, a⟩) := by
  have h34 : lowDigit (⟨q, m⟩ : Num) &&& 3 = 3 ↔ m % 4 = 3 :=
    lowDigit_and_eq (n := 2) (by decide) rfl
  have h58 : lowDigit (⟨q, m⟩ : Num) &&& 7 = 5 ↔ m % 8 = 5 :=
    lowDigit_and_eq (n := 3) (by decide) rfl
  have h14 : lowDigit (⟨q, m⟩ : Num) &&& 3 = 1 ↔ m % 4 = 1 :=
    lowDigit_and_eq (n := 2) (by decide) rfl
  unfold chooseRoot
  by_cases hm3 : m % 4 = 3
  · rw [if_pos (h34.mpr hm3)]
    exact ⟨fun _ => sqrt34_eq J hm3 hroom ha hres, fun h1 => by omega⟩
  rw [if_neg (h34.not.mpr hm3)]
  by_cases hm5 : m % 8 = 5
  · rw [if_pos (h58.mpr hm5)]
    exact ⟨fun _ => sqrt58_eq J hm5 hroom ha hres, fun h1 => by omega⟩
  have hm1 : m % 8 = 1 := by omega
  have htonelli := sqrtTonelli_eq J hodd hroom (hmore hm1) ha0 ha hres
  rw [if_neg (h58.not.mpr hm5), if_pos (h14.mpr (by omega))]
  constructor
  · intro h
    exact htonelli.1 (h.resolve_left fun hne => hne hm1)
  · intro _ hnot
    apply htonelli.2
    intro j hj hj'
    by_contra hsq
    exact hnot ⟨j, hj, hj', hsq⟩

/-- What `bn_mod_sqrt` does behind its reduction: 0 and 1 are their own roots, a nonresidue is
refused, and a residue goes through its algorithm and the check. -/
theorem bnModSqrt_eq (J : Junk) (hodd : m % 2 = 1) (hroom : Room c q m) {b : Nat}
    (hred : Reduces c m b) :
    (b % m ≤ 1 → bnModSqrt J (.val ⟨q, m⟩) (⟨c, b⟩ : Num) = .ok () ⟨c, b % m⟩) ∧
    (¬IsSquare (b : ZMod m) →
      bnModSqrt J (.val ⟨q, m⟩) (⟨c, b⟩ : Num) = .error (.code (-1)) ⟨c, b % m⟩) ∧
    (1 < b % m → IsSquare (b : ZMod m) → ∀ x,
      chooseRoot (J 3) (⟨q, m⟩ : Num) ⟨c, b % m⟩ = .ok () ⟨c, x⟩ → IsRoot m (b % m) x →
        bnModSqrt J (.val ⟨q, m⟩) (⟨c, b⟩ : Num) = .ok () ⟨c, x⟩) ∧
    (1 < b % m → IsSquare (b : ZMod m) → ∀ e t,
      chooseRoot (J 3) (⟨q, m⟩ : Num) ⟨c, b % m⟩ = .error e t →
        bnModSqrt J (.val ⟨q, m⟩) (⟨c, b⟩ : Num) = .error e t) := by
  have hm1 := hp.out.one_lt
  have hm0 : m ≠ 0 := by omega
  have hlt := Nat.mod_lt b (Nat.pos_of_ne_zero hm0)
  have hcast : (b : ZMod m) = (b % m : Nat) := (ZMod.natCast_mod b m).symm
  have hisodd : bnIsOdd ((Arg.val (⟨q, m⟩ : Num)).get ⟨c, b⟩) = true := by simpa using hodd
  have hneg := isNonresidue_eq (a := b % m) (J 1) hodd hroom (Or.inl hlt) (⟨c, b % m⟩ : Num)
  rw [bnModSqrt, bind_of_ok (get_apply _), ite_apply_pos hisodd,
    bind_of_ok (bnMod_eq (J 0) hm0 hred), bind_of_ok (get_apply _), hcast, bnIsZero_eq, bnIsOne_eq,
    Arg.get_val]
  generalize b % m = a at *
  have hsmall : (decide (a = 0) || decide (a = 1)) = true ↔ a ≤ 1 := by
    simp only [Bool.or_eq_true, decide_eq_true_eq]
    omega
  have hnon := (legendreSym_iff (m := m) a)
  refine ⟨fun ha => ?_, fun hsq => ?_, fun ha hsq x hrun hx => ?_, fun ha hsq e t hrun => ?_⟩
  · rw [ite_apply_pos (hsmall.mpr ha), pure_apply]
  · have ha : ¬a ≤ 1 := by
      intro ha
      apply hsq
      by_cases h0 : a = 0
      · rw [h0, Nat.cast_zero]
        exact IsSquare.zero
      · rw [show a = 1 by omega, Nat.cast_one]
        exact IsSquare.one
    rw [ite_apply_neg (hsmall.not.mpr ha), bind_of_ok hneg,
      ite_apply_pos (by simpa using hnon.mpr hsq), throw_apply]
  -- the check behind the algorithm squares the root
  · have hsq' : (x : ZMod m) * x = a := by rw [← pow_two, hx.2]
    have hback : x * x % m = a := by
      rw [← cast_eq_iff (Nat.mod_lt _ (Nat.pos_of_ne_zero hm0)) hlt, ZMod.natCast_mod,
        Nat.cast_mul, hsq']
    have hcmp : bnCmp (⟨c, a⟩ : Num) ⟨c, a⟩ = .eq := by
      rw [bnCmp_eq, Nat.compare_eq_eq]
    rw [ite_apply_neg (hsmall.not.mpr (by omega)), bind_of_ok hneg,
      ite_apply_neg (by simpa using hnon.not.mpr (not_not.mpr hsq)),
      exec_bind_of_ok (bnAssignInit_val _ _)]
    refine (congrFun (chooseRoot_bind (J 3) ⟨q, m⟩ _).symm _).trans ?_
    rw [bind_of_ok hrun]
    refine (bind_of_ok (get_apply _) _).trans ?_
    rw [exec_bind_of_ok (bnAssignInit_val _ _),
      exec_bind_of_ok (bnModSquare_eq (J 5) hx.1 hroom.product), hback, ite_apply_pos hcmp,
      pure_apply]
  · rw [ite_apply_neg (hsmall.not.mpr (by omega)), bind_of_ok hneg,
      ite_apply_neg (by simpa using hnon.not.mpr (not_not.mpr hsq)),
      exec_bind_of_ok (bnAssignInit_val _ _)]
    refine (congrFun (chooseRoot_bind (J 3) ⟨q, m⟩ _).symm _).trans ?_
    rw [bind_of_error hrun]

end

end ByValue

namespace Bn

open ByValue

/-- The sizes for which every product of `bn_mod_sqrt` fits. -/
structure SqrtRoom (m b : Bn) : Prop where
  modulus : m.count ≤ b.count
  product : 2 * m.digits ≤ b.count
  reduce : b.value < m.value ∨ b.digits ≠ b.count ∨ topClz m.value ≤ topClz b.value
  /-- The locals of the third algorithm hold at most 32 digits. -/
  locals : m.value % 8 = 1 → m.digits ≤ 15 ∧ m.count ≤ 1 + 2 * m.digits

/-- `bn_mod_legendre` returns the Legendre symbol, and `bn_mod_sqrt` leaves a root of every residue
and refuses the others. -/
structure ModSqrtExact (J J' : Junk) (m b : Bn) : Prop where
  legendre : ∀ [Fact m.value.Prime],
    (bnModLegendre J b m : BnM Bn Int) b = .ok (legendreSym m.value b.value) b
  root : IsSquare (b.value : ZMod m.value) →
    ∃ x, Leaves (bnModSqrt J' (.val m)) b x ∧ x < m.value ∧ x ^ 2 ≡ b.value [MOD m.value]
  refuse : ¬IsSquare (b.value : ZMod m.value) →
    ∃ t, bnModSqrt J' (.val m) b = .error (.code (-1)) t

section

variable {m b : Bn}

theorem SqrtRoom.room (h : SqrtRoom m b) (hm : m.WF) : Room b.count m.count m.value := by
  have hdig := hm.digits_eq
  refine ⟨?_, h.modulus, ?_⟩
  · rw [← hdig]
    exact hm.digits_le
  · rw [← hdig]
    exact h.product

theorem SqrtRoom.reduces (h : SqrtRoom m b) (hb : b.WF) : Reduces b.count m.value b.value := by
  have hred := h.reduce
  rwa [hb.digits_eq] at hred

theorem SqrtRoom.tonelli (h : SqrtRoom m b) (hm : m.WF) (h8 : m.value % 8 = 1) :
    TonelliRoom m.count m.value := by
  obtain ⟨h15, hcount⟩ := h.locals h8
  rw [hm.digits_eq] at h15 hcount
  exact ⟨h15, hcount⟩

theorem bnModLegendre_eq [Fact m.value.Prime] (J : Junk) (hm : m.WF) (hb : b.WF)
    (hodd : m.value % 2 = 1) (hroom : SqrtRoom m b) :
    (bnModLegendre J b m : BnM Bn Int) b = .ok (legendreSym m.value b.value) b := by
  have hnum := ByValue.bnModLegendre_eq J hodd (hroom.room hm) (hroom.reduces hb) ()
  have habs := bnModLegendre_hom absHom id J ⟨b, hb⟩ ⟨m, hm⟩ ()
  have hrun := bnModLegendre_hom bnHom (fun _ : Unit => b) J ⟨b, hb⟩ ⟨m, hm⟩ ()
  change bnModLegendre J b m b = _ at hrun
  change bnModLegendre J (⟨b.count, b.value⟩ : Num) ⟨m.count, m.value⟩ () = _ at habs
  rw [hnum] at habs
  rw [hrun]
  cases hres : bnModLegendre J (⟨b, hb⟩ : WfBn) ⟨m, hm⟩ () with
  | ok a t =>
    rw [hres] at habs
    injection habs with ha
    rw [ha]
    rfl
  | error e t =>
    rw [hres] at habs
    cases habs

theorem pow_half_of_isSquare {m b : Nat} [Fact m.Prime] (h1 : 1 < b % m)
    (hsq : IsSquare (b : ZMod m)) : ((b % m : Nat) : ZMod m) ^ (m / 2) = 1 := by
  rw [ZMod.natCast_mod]
  refine (ZMod.euler_criterion m fun h0 => ?_).mp hsq
  have hdvd := (ZMod.natCast_eq_zero_iff b m).mp h0
  omega

/-- Everything is right unless the third algorithm looks for a nonresidue and meets none. -/
theorem modSqrtExact_iff (J J' : Junk) (hm : m.WF) (hb : b.WF) (hp : m.value.Prime)
    (hodd : m.value % 2 = 1) (hroom : SqrtRoom m b) :
    ModSqrtExact J J' m b ↔
      (m.value % 8 = 1 → IsSquare (b.value : ZMod m.value) → 1 < b.value % m.value →
        SearchFinds m.value (b.value % m.value)) := by
  have : Fact m.value.Prime := ⟨hp⟩
  have href := bnModSqrt_refines J' (argWF_val hm)
  have hlt := Nat.mod_lt b.value hp.pos
  obtain ⟨hsmall, hnon, hgood, hbad⟩ := bnModSqrt_eq J' hodd (hroom.room hm) (hroom.reduces hb)
  have hchoose := fun h1 hsq => chooseRoot_eq (c := b.count) (a := b.value % m.value) (J' 3) hodd
    (hroom.room hm) (hroom.tonelli hm) (by omega) hlt (pow_half_of_isSquare h1 hsq)
  constructor
  · intro h h8 hsq h1
    by_contra hnot
    obtain ⟨x, hleaves, -⟩ := h.root hsq
    obtain ⟨y, hy, -⟩ := (href.ok_iff hb).mp hleaves
    have herr := hbad h1 hsq _ _ ((hchoose h1 hsq).2 h8 hnot)
    cases hy.symm.trans herr
  · intro hfinds
    refine ⟨bnModLegendre_eq J hm hb hodd hroom, fun hsq => ?_, fun hsq => ?_⟩
    · by_cases h1 : 1 < b.value % m.value
      · have hcond : m.value % 8 ≠ 1 ∨ SearchFinds m.value (b.value % m.value) := by
          by_cases h8 : m.value % 8 = 1
          · exact Or.inr (hfinds h8 hsq h1)
          · exact Or.inl h8
        obtain ⟨x, hrun, hroot⟩ := (hchoose h1 hsq).1 hcond
        refine ⟨x, (href.ok_iff hb).mpr ⟨_, hgood h1 hsq x hrun hroot, rfl⟩, hroot.1, ?_⟩
        rw [← ZMod.natCast_eq_natCast_iff, Nat.cast_pow, hroot.2, ZMod.natCast_mod]
      · -- 0 and 1 are their own roots
        have hself : (b.value % m.value) ^ 2 = b.value % m.value := by
          interval_cases b.value % m.value <;> rfl
        refine ⟨_, (href.ok_iff hb).mpr ⟨_, hsmall (by omega), rfl⟩, hlt, ?_⟩
        rw [hself]
        exact Nat.mod_modEq _ _
    · obtain ⟨t, ht, -⟩ := href.error hb (hnon hsq)
      exact ⟨t, ht⟩

end

/-- The square roots of 2 modulo 7. -/
theorem modSqrtExact_seven : ModSqrtExact blank blank (oneDigit 1 7) (oneDigit 2 2) := by
  apply (modSqrtExact_iff blank blank (oneDigit_wf (by decide) (by decide) (by decide))
    (oneDigit_wf (by decide) (by decide) (by decide)) (by decide) (by decide)
    ⟨by decide, by decide, Or.inl (by decide), by decide⟩).mpr
  intro h8
  exact absurd h8 (by decide)

/-- 4 is the square of 2 modulo 137, and the search finds no nonresidue behind it. -/
theorem not_forall_modSqrtExact :
    ¬ ∀ (J J' : Junk) (m b : Bn), m.WF → b.WF → m.value.Prime → m.value % 2 = 1 → SqrtRoom m b →
      ModSqrtExact J J' m b := by
  intro h
  have hprime : (oneDigit 1 137).value.Prime := by decide
  have hm : (oneDigit 1 137).WF := oneDigit_wf (by decide) (by decide) (by decide)
  have hb : (oneDigit 2 4).WF := oneDigit_wf (by decide) (by decide) (by decide)
  have hfour := h blank blank (oneDigit 1 137) (oneDigit 2 4) hm hb hprime (by decide)
    ⟨by decide, by decide, Or.inl (by decide), by decide⟩
  have hnone : ∀ j, 0 < j → j ≤ bitCount 4 → IsSquare (candidate 137 4 j : ZMod 137) := by
    intro j hj hj'
    rw [show bitCount 4 = 3 by decide] at hj'
    interval_cases j <;> decide
  have hroom : Room 2 1 137 := ⟨by decide, by decide, by decide⟩
  have hsq : IsSquare ((4 : Nat) : ZMod 137) := ⟨2, by decide⟩
  have hres : ((4 : Nat) : ZMod 137) ^ (137 / 2) = 1 := by decide
  have : Fact (Nat.Prime 137) := ⟨hprime⟩
  have herr := (sqrtTonelli_eq ((blank : Junk) 3) (by decide) hroom ⟨by decide, by decide⟩
    (by decide) (by decide) hres).2 hnone
  have hrun := (ByValue.bnModSqrt_eq blank (by decide) hroom (Or.inl (by decide))).2.2.2
    (by decide) hsq _ _ herr
  obtain ⟨x, hx, -⟩ := hfour.root hsq
  obtain ⟨y, hy, -⟩ := ((bnModSqrt_refines blank (argWF_val hm)).ok_iff hb).mp hx
  cases hy.symm.trans hrun

end Bn

end BigNum
