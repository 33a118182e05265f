import Liblcb.Curve.Field
import Liblcb.Lib.Weierstrass

/-!
# Point arithmetic on field elements

What the point functions compute when the coordinates are field elements: the formulas of the
source, as equations between runs.
-/

namespace Curve

open BigNum BigNum.ByValue Limbs StateErr BnOps

/-- Digits of the locals of the point functions. -/
def EcCurve.dbl {B : Type} (curve : EcCurve B) : Nat := (curve.bitsDbl + 63) / 64

variable {p : Nat}

/-- The numbers of a curve `y ^ 2 = x ^ 3 + a * x + b` over the field of `p` elements, for which the
locals of the point functions fit `BN_BIT_LEN`. -/
structure NumCurve (curve : EcCurve BigNum.Num) (a b : ZMod p) : Prop where
  p_val : curve.p.val = p
  a_val : curve.a.val = a.val
  b_val : curve.b.val = b.val
  aM3 : curve.aM3 = true → a = -3
  three_lt : 3 < p
  p_lt : p < 2 ^ curve.m
  bits_le : curve.bitsDbl ≤ 2048
  p_count : curve.p.count ≤ curve.dbl

namespace NumCurve

variable {curve : EcCurve BigNum.Num} {a b : ZMod p}

theorem digits_le (h : NumCurve curve a b) : limbCount 64 p ≤ (curve.m + 63) / 64 := by
  rw [limbCount_le_iff (by decide)]
  exact h.p_lt.trans_le (Nat.pow_le_pow_right (by decide) (by omega))

theorem sizes (h : NumCurve curve a b) : Sizes p curve.p.count curve.dbl := by
  have hdig := h.digits_le
  have hbits := h.bits_le
  unfold EcCurve.bitsDbl at hbits
  refine ⟨h.three_lt, by omega, ?_, h.p_count⟩
  unfold EcCurve.dbl EcCurve.bitsDbl
  omega

theorem p_eq (h : NumCurve curve a b) : curve.p = ⟨curve.p.count, p⟩ := by
  conv_rhs => rw [← h.p_val]

theorem a_eq (h : NumCurve curve a b) : curve.a = fe curve.a.count a := by
  rw [fe, ← h.a_val]

theorem bitsDbl_ne_zero : curve.bitsDbl ≠ 0 := by
  unfold EcCurve.bitsDbl
  omega

theorem init_eq [Fact p.Prime] (h : NumCurve curve a b) (x : BigNum.Num) :
    bnInit curve.bitsDbl x = .ok () (fe curve.dbl (0 : ZMod p)) :=
  fe_init bitsDbl_ne_zero h.bits_le x

theorem new_eq [Fact p.Prime] (h : NumCurve curve a b) {σ : Type} (J : Junk) (s : σ) :
    (newBn J curve.bitsDbl : EStateM Err σ BigNum.Num) s = .ok (fe curve.dbl (0 : ZMod p)) s :=
  fe_new J bitsDbl_ne_zero h.bits_le s

end NumCurve

section

variable [hp : Fact p.Prime] {curve : EcCurve BigNum.Num} {a b : ZMod p} {c e f k m n : Nat}

/-! ## Projective coordinates -/

theorem ecPointProjNorm_fe (h : NumCurve curve a b) (hcx : limbCount 64 p ≤ c)
    (hcy : limbCount 64 p ≤ e) (hcz : limbCount 64 p ≤ f) (J : Junk) (X Y : ZMod p) {Z : ZMod p}
    (hZ : Z ≠ 0) :
    ecPointProjNorm J curve ⟨fe c X, fe e Y, fe f Z⟩ =
      .ok () ⟨fe c (X / Z ^ 2), fe e (Y / Z ^ 3), fe f (1 : ZMod p)⟩ := by
  have hs := h.sizes
  have hd := hs.le_dbl
  by_cases h1 : Z = 1
  · simp only [ecPointProjNorm, bind_apply, get_apply, fold_ok, EcPointProj.isAtInfinity,
      fe_isZero, fe_isOne, h1, one_ne_zero, decide_false, decide_true, Bool.false_eq_true, if_false,
      if_true, pure_apply, one_pow, div_one]
  · have hx : X * Z⁻¹ ^ 2 = X / Z ^ 2 := by field_simp
    have hy : Y * Z⁻¹ ^ 2 * Z⁻¹ = Y / Z ^ 3 := by field_simp
    simp only [ecPointProjNorm, bind_apply, get_apply, fold_ok, EcPointProj.isAtInfinity,
      fe_isZero, hZ, h1, decide_false, Bool.false_eq_true, if_false, fe_isOne, h.new_eq, exec_apply,
      fe_assign _ _ hd]
    rw [h.p_eq]
    simp only [fe_assign _ _ hd, fe_assign _ _ hcx, fe_assign _ _ hcy, fold_ok,
      fe_modInv _ hZ hs hd, fe_modSquare _ _ hs, fe_modMult _ _ _ hs, EcPointProj.onX_apply,
      EcPointProj.onY_apply, EcPointProj.onZ_apply, fe_assignDigit_one h.three_lt _ hcz, hx, hy]

theorem fe_modMultDigit_two (J : Junk) {q d : Nat} (v : ZMod p) (hs : Sizes p q d) :
    bnModMultDigit J 2 (.val ⟨q, p⟩) (fe d v) = .ok () (fe d (2 * v)) := by
  rw [fe_modMultDigit J 2 v hs, show (2 : Digit).toNat = 2 from rfl, Nat.cast_ofNat]

theorem fe_modMultDigit_three (J : Junk) {q d : Nat} (v : ZMod p) (hs : Sizes p q d) :
    bnModMultDigit J 3 (.val ⟨q, p⟩) (fe d v) = .ok () (fe d (3 * v)) := by
  rw [fe_modMultDigit J 3 v hs, show (3 : Digit).toNat = 3 from rfl, Nat.cast_ofNat]

theorem projSlope_fe (h : NumCurve curve a b) (J : Junk) (X Y Z tA tB : ZMod p)
    (s : EcPointProj BigNum.Num) :
    ∃ w, projSlope J curve ⟨fe c X, fe e Y, fe f Z⟩ (fe curve.dbl tA) (fe curve.dbl tB) s =
      .ok (fe curve.dbl (w : ZMod p), fe curve.dbl (3 * X ^ 2 + a * Z ^ 4)) s := by
  have hs := h.sizes
  have hd := hs.le_dbl
  have h4 : 4 < 2 ^ 64 := by decide
  cases hM : curve.aM3 with
  | true =>
    have hslope : 3 * ((X - Z ^ 2) * (Z ^ 2 + X)) = 3 * X ^ 2 + a * Z ^ 4 := by
      rw [h.aM3 hM]
      ring
    refine ⟨Z ^ 2 + X, ?_⟩
    simp only [projSlope, hM, if_true]
    rw [h.p_eq]
    simp only [bind_apply, exec_apply, fold_ok, fe_assign _ _ hd, fe_modSquare _ _ hs,
      fe_modSub _ _ _ hd, fe_modAdd _ _ hs, fe_modMult _ _ _ hs, fe_modMultDigit_three _ _ hs,
      pure_apply, hslope]
  | false =>
    simp only [projSlope, hM, Bool.false_eq_true, if_false]
    rw [h.p_eq, h.a_eq]
    simp only [bind_apply, exec_apply, fold_ok, fe_assign _ _ hd, fe_modSquare _ _ hs,
      fe_modMultDigit_three _ _ hs, fe_isZero, StateErr.ite_apply, decide_eq_true_eq]
    by_cases ha : a = 0
    · refine ⟨tA, ?_⟩
      rw [if_pos ha, pure_apply, ha, zero_mul, add_zero]
    · refine ⟨Z ^ 4 * a, ?_⟩
      rw [if_neg ha, fe_modExpDigit _ h4 _ hs, fold_ok, fold_ok, fe_modMult _ _ _ hs, fold_ok,
        fold_ok, fe_modAdd _ _ hs, fold_ok, fold_ok, pure_apply, mul_comm (Z ^ 4)]

theorem projHalve_fe (h : NumCurve curve a b) {d : Nat} (hs : Sizes p curve.p.count d)
    (v : ZMod p) : projHalve curve (fe d v) = .ok () (fe d (v / 2)) := by
  have hroom := four_mul_le_cap hs.lt_dbl
  have hlt := val_lt_p v
  have hodd := odd_p hs
  have h2 := two_ne_zero_p (p := p) h.three_lt
  have hhalf : ∀ n : Nat, (n : ZMod p) = v → n % 2 = 0 → ((n / 2 : Nat) : ZMod p) = v / 2 := by
    intro n hn heven
    rw [eq_div_iff h2, ← hn]
    have : n = n / 2 * 2 := by omega
    conv_rhs => rw [this]
    push_cast
    rfl
  rw [projHalve, h.p_eq]
  simp only [bind_apply, get_apply, fold_ok, onlyIf_apply, bnIsOdd_eq, decide_eq_true_eq]
  by_cases ho : (fe d v).val % 2 = 1
  · rw [if_pos ho]
    rw [fe] at ho ⊢
    have ho' : v.val % 2 = 1 := ho
    rw [bnAdd_val hs.le_dbl, fold_ok, pure_apply, fold_ok, bnRShift_one,
      Nat.mod_eq_of_lt (show v.val + p < _ by omega)]
    exact congrArg _ (fe_eq (by omega) (hhalf _ (by simp) (by omega)))
  · rw [if_neg ho, fold_ok]
    rw [fe] at ho ⊢
    have ho' : ¬v.val % 2 = 1 := ho
    rw [bnRShift_one]
    exact congrArg _ (fe_eq (by omega) (hhalf _ (by simp) (by omega)))

theorem projDouble_zero (J : Junk) (X Z : ZMod p) :
    projDouble J curve ⟨fe c X, fe e (0 : ZMod p), fe f Z⟩ =
      .ok () ⟨fe c X, fe e (0 : ZMod p), fe f (0 : ZMod p)⟩ := by
  simp only [projDouble, bind_apply, get_apply, fold_ok, fe_isZero, decide_true, if_true,
    EcPointProj.onZ_apply, fe_assignZero]

theorem projDouble_fe (h : NumCurve curve a b) (hcx : limbCount 64 p ≤ c)
    (hcy : limbCount 64 p ≤ e) (hcz : limbCount 64 p ≤ f) (J : Junk) (X Z : ZMod p) {Y : ZMod p}
    (hY : Y ≠ 0) {M S X₃ : ZMod p} (hM : M = 3 * X ^ 2 + a * Z ^ 4)
    (hS : S = X * (2 * Y) ^ 2) (hX : X₃ = M ^ 2 - S - S) :
    projDouble J curve ⟨fe c X, fe e Y, fe f Z⟩ =
      .ok () ⟨fe c X₃, fe e ((S - X₃) * M - ((2 * Y) ^ 2) ^ 2 / 2), fe f (Z * (2 * Y))⟩ := by
  have hs := h.sizes
  have hd := hs.le_dbl
  obtain ⟨w, hw⟩ := projSlope_fe (c := c) (e := e) (f := f) h (J 4) X Y Z 0 0
    ⟨fe c X, fe e Y, fe f Z⟩
  have hhalf := projHalve_fe h hs
  rw [← hM] at hw
  simp only [projDouble, bind_apply, get_apply, fold_ok, fe_isZero, hY, decide_false,
    Bool.false_eq_true, if_false, h.new_eq, hw, exec_apply, fe_assign _ _ hd]
  rw [h.p_eq]
  simp only [fe_assign _ _ hd, fe_assign _ _ hcx, fe_assign _ _ hcy, fe_assign _ _ hcz, fold_ok,
    fe_modMultDigit_two _ _ hs, fe_modMult _ _ _ hs, EcPointProj.onX_apply,
    EcPointProj.onY_apply, EcPointProj.onZ_apply, fe_modSquare _ _ hs, hhalf,
    fe_modSub _ _ _ hd, ← hS, ← hX]

theorem projSum_fe (h : NumCurve curve a b) (hcx : limbCount 64 p ≤ c)
    (hcy : limbCount 64 p ≤ e) (hcz : limbCount 64 p ≤ f) (J : Junk)
    (X₁ Y₁ Z₁ X₂ Y₂ Z₂ A B C D : ZMod p) {X₃ : ZMod p}
    (hX : X₃ = (D - B) ^ 2 - (C - A) ^ 3 - 2 * (A * (C - A) ^ 2)) :
    projSum J curve ⟨fe k X₂, fe m Y₂, fe n Z₂⟩ (fe curve.dbl A) (fe curve.dbl B)
        (fe curve.dbl C) (fe curve.dbl D) ⟨fe c X₁, fe e Y₁, fe f Z₁⟩ =
      .ok () ⟨fe c X₃, fe e ((D - B) * (A * (C - A) ^ 2 - X₃) - B * (C - A) ^ 3),
        fe f ((C - A) * Z₁ * Z₂)⟩ := by
  have hs := h.sizes
  have hd := hs.le_dbl
  have hX' : X₃ = (D - B) ^ 2 - (C - A) ^ 2 * (C - A) - 2 * ((C - A) ^ 2 * A) := by
    rw [hX]
    ring
  have hY : (D - B) * (A * (C - A) ^ 2 - X₃) - B * (C - A) ^ 3 =
      ((C - A) ^ 2 * A - X₃) * (D - B) - (C - A) ^ 2 * (C - A) * B := by ring
  have hp := h.p_eq
  generalize curve.p.count = q at hp hs
  unfold projSum
  rw [hp, bind_of_ok (h.new_eq _ _), bind_of_ok (h.new_eq _ _), bind_of_ok (h.new_eq _ _),
    bind_of_ok (h.new_eq _ _), exec_bind_of_ok (fe_assign _ _ hd),
    exec_bind_of_ok (fe_modSub _ _ _ hd), exec_bind_of_ok (fe_assign _ _ hd),
    exec_bind_of_ok (fe_modSub _ _ _ hd), exec_bind_of_ok (fe_assign _ _ hd),
    exec_bind_of_ok (fe_modSquare _ _ hs), exec_bind_of_ok (fe_assign _ _ hd),
    exec_bind_of_ok (fe_modMult _ _ _ hs), exec_bind_of_ok (fe_modMult _ _ _ hs),
    exec_bind_of_ok (fe_assign _ _ hd), exec_bind_of_ok (fe_modSquare _ _ hs),
    exec_bind_of_ok (fe_modSub _ _ _ hd), exec_bind_of_ok (fe_assign _ _ hd),
    exec_bind_of_ok (fe_modMultDigit_two _ _ hs), exec_bind_of_ok (fe_modSub _ _ _ hd), ← hX']
  rw [bind_apply, EcPointProj.onX_apply, fe_assign _ _ hcx, fold_ok, fold_ok, bind_apply, get_apply,
    fold_ok, exec_bind_of_ok (fe_assign _ _ hd), exec_bind_of_ok (fe_modSub _ _ _ hd),
    exec_bind_of_ok (fe_modMult _ _ _ hs), exec_bind_of_ok (fe_assign _ _ hd),
    exec_bind_of_ok (fe_modMult _ _ _ hs), exec_bind_of_ok (fe_modSub _ _ _ hd), ← hY]
  rw [bind_apply, EcPointProj.onY_apply, fe_assign _ _ hcy, fold_ok, fold_ok,
    exec_bind_of_ok (fe_assign _ _ hd), exec_bind_of_ok (fe_modMult _ _ _ hs),
    exec_bind_of_ok (fe_modMult _ _ _ hs), EcPointProj.onZ_apply, fe_assign _ _ hcz, fold_ok]

theorem projAddOther_fe (h : NumCurve curve a b) (J : Junk) {X₁ Y₁ Z₁ X₂ Y₂ Z₂ A B C D : ZMod p}
    (hA : A = X₁ * Z₂ ^ 2) (hB : B = Y₁ * Z₂ ^ 3) (hC : C = X₂ * Z₁ ^ 2) (hD : D = Y₂ * Z₁ ^ 3) :
    projAddOther J curve ⟨fe k X₂, fe m Y₂, fe n Z₂⟩ ⟨fe c X₁, fe e Y₁, fe f Z₁⟩ =
      if A = C then
        if B = D then projDouble (J 12) curve ⟨fe c X₁, fe e Y₁, fe f Z₁⟩
        else .ok () ⟨fe c X₁, fe e Y₁, fe f (0 : ZMod p)⟩
      else projSum (J 13) curve ⟨fe k X₂, fe m Y₂, fe n Z₂⟩ (fe curve.dbl A) (fe curve.dbl B)
        (fe curve.dbl C) (fe curve.dbl D) ⟨fe c X₁, fe e Y₁, fe f Z₁⟩ := by
  have hs := h.sizes
  have hd := hs.le_dbl
  have hA' : Z₂ ^ 2 * X₁ = A := by rw [hA, mul_comm]
  have hB' : Z₂ ^ 2 * Z₂ * Y₁ = B := by
    rw [hB]
    ring
  have hC' : Z₁ ^ 2 * X₂ = C := by rw [hC, mul_comm]
  have hD' : Z₁ ^ 2 * Z₁ * Y₂ = D := by
    rw [hD]
    ring
  have hp := h.p_eq
  generalize curve.p.count = q at hp hs
  have hzero : EcPointProj.onZ bnAssignZero ⟨fe c X₁, fe e Y₁, fe f Z₁⟩ =
      .ok () (⟨fe c X₁, fe e Y₁, fe f (0 : ZMod p)⟩ : EcPointProj BigNum.Num) := by
    rw [EcPointProj.onZ_apply, fe_assignZero, fold_ok]
  unfold projAddOther
  rw [bind_apply, get_apply, fold_ok, hp, bind_of_ok (h.new_eq _ _), bind_of_ok (h.new_eq _ _),
    bind_of_ok (h.new_eq _ _), bind_of_ok (h.new_eq _ _), exec_bind_of_ok (fe_assign _ _ hd),
    exec_bind_of_ok (fe_modSquare _ _ hs), exec_bind_of_ok (fe_assign _ _ hd),
    exec_bind_of_ok (fe_modMult _ _ _ hs), exec_bind_of_ok (fe_modMult _ _ _ hs),
    exec_bind_of_ok (fe_modMult _ _ _ hs), hA', hB', exec_bind_of_ok (fe_assign _ _ hd),
    exec_bind_of_ok (fe_modSquare _ _ hs), exec_bind_of_ok (fe_assign _ _ hd),
    exec_bind_of_ok (fe_modMult _ _ _ hs), exec_bind_of_ok (fe_modMult _ _ _ hs),
    exec_bind_of_ok (fe_modMult _ _ _ hs), hC', hD']
  simp only [StateErr.ite_apply, fe_cmp, hzero]

/-! ## Affine coordinates -/

theorem affineFinish_fe (h : NumCurve curve a b) (hcx : limbCount 64 p ≤ c)
    (hcy : limbCount 64 p ≤ e) (J : Junk) (i : Bool) (x₁ y₁ x₂ l₀ : ZMod p) {t l x₃ : ZMod p}
    (ht : t ≠ 0) (hl : l = l₀ * t⁻¹)
    (hx : x₃ = l ^ 2 - x₁ - x₂) :
    affineFinish J curve (fe k x₂) (fe curve.dbl l₀) (fe curve.dbl t) ⟨fe c x₁, fe e y₁, i⟩ =
      .ok () ⟨fe c x₃, fe e (l * (x₁ - x₃) - y₁), false⟩ := by
  have hs := h.sizes
  have hd := hs.le_dbl
  simp only [affineFinish, bind_apply, get_apply, fold_ok, exec_apply]
  rw [h.p_eq]
  simp only [fe_modInv _ ht hs hd, fe_modMult _ _ _ hs, fe_assign _ _ hd, fe_assign _ _ hcx,
    fe_assign _ _ hcy, fold_ok, fe_modSquare _ _ hs, fe_modSub _ _ _ hd, fe_modSub _ _ _ hcx,
    EcPoint.onX_apply,
    EcPoint.onY_apply, EcPoint.setInfinity_apply, ← hl, ← hx]

theorem affineDouble_zero (J : Junk) (bx : BigNum.Num) (x : ZMod p) (i : Bool) :
    affineDouble J curve bx ⟨fe c x, fe e (0 : ZMod p), i⟩ =
      .ok () ⟨fe c x, fe e (0 : ZMod p), true⟩ := by
  simp only [affineDouble, bind_apply, get_apply, fold_ok, fe_isZero, decide_true, if_true,
    EcPoint.setInfinity_apply]

theorem affineDouble_fe (h : NumCurve curve a b) (hcx : limbCount 64 p ≤ c)
    (hcy : limbCount 64 p ≤ e) (J : Junk) (i : Bool) (x x₂ : ZMod p) {y l x₃ : ZMod p}
    (hy : y ≠ 0) (hl : l = (3 * x ^ 2 + a) * (2 * y)⁻¹)
    (hx : x₃ = l ^ 2 - x - x₂) :
    affineDouble J curve (fe k x₂) ⟨fe c x, fe e y, i⟩ =
      .ok () ⟨fe c x₃, fe e (l * (x - x₃) - y), false⟩ := by
  have hs := h.sizes
  have hd := hs.le_dbl
  have h2y : 2 * y ≠ 0 := mul_ne_zero (two_ne_zero_p h.three_lt) hy
  have hfin := affineFinish_fe (k := k) h hcx hcy (J 6) i x y x₂ (3 * x ^ 2 + a) h2y hl hx
  cases hM : curve.aM3 with
  | true =>
    have hslope : 3 * x ^ 2 - 3 = 3 * x ^ 2 + a := by rw [h.aM3 hM, sub_eq_add_neg]
    have hthree : ∀ hne, bnAssignDigit 3 hne (fe curve.dbl (0 : ZMod p)) =
        .ok () (fe curve.dbl (3 : ZMod p)) := by
      intro hne
      have := assignDigit_fe (x := fe curve.dbl (0 : ZMod p)) 3 hne h.three_lt
        (digits_pos h.three_lt hd)
      rwa [show (3 : Digit).toNat = 3 from rfl, Nat.cast_ofNat] at this
    simp only [affineDouble, bind_apply, get_apply, fold_ok, fe_isZero, hy, decide_false,
      Bool.false_eq_true, if_false, h.new_eq, exec_apply, fe_assign _ _ hd, hM, if_true, hthree]
    rw [h.p_eq]
    simp only [fe_modSquare _ _ hs, fe_modMultDigit_three _ _ hs, fe_modMultDigit_two _ _ hs,
      fe_modSub _ _ _ hd, fold_ok, hslope, hfin]
  | false =>
    simp only [affineDouble, bind_apply, get_apply, fold_ok, fe_isZero, hy, decide_false,
      Bool.false_eq_true, if_false, h.new_eq, exec_apply, fe_assign _ _ hd, hM, pure_apply]
    rw [h.p_eq, h.a_eq]
    simp only [fe_modSquare _ _ hs, fe_modMultDigit_three _ _ hs, fe_modMultDigit_two _ _ hs,
      fe_modAdd _ _ hs, fold_ok, hfin]

theorem affineAddOther_fe (h : NumCurve curve a b) (J : Junk) (i j : Bool)
    (x₁ y₁ x₂ y₂ : ZMod p) :
    affineAddOther J curve ⟨fe k x₂, fe m y₂, j⟩ ⟨fe c x₁, fe e y₁, i⟩ =
      if x₂ - x₁ = 0 then
        if y₁ = y₂ then affineDouble (J 2) curve (fe k x₂) ⟨fe c x₁, fe e y₁, i⟩
        else .ok () ⟨fe c x₁, fe e y₁, true⟩
      else affineFinish (J 5) curve (fe k x₂) (fe curve.dbl (y₂ - y₁)) (fe curve.dbl (x₂ - x₁))
        ⟨fe c x₁, fe e y₁, i⟩ := by
  have hs := h.sizes
  have hd := hs.le_dbl
  simp only [affineAddOther, bind_apply, get_apply, fold_ok, h.new_eq, exec_apply,
    fe_assign _ _ hd]
  rw [h.p_eq]
  simp only [fe_modSub _ _ _ hd, fold_ok, fe_isZero, decide_eq_true_eq, StateErr.ite_apply,
    fe_cmp, EcPoint.setInfinity_apply, bind_apply, h.new_eq, exec_apply, fe_assign _ _ hd]

end

end Curve

/-!
# Chord and tangent on numbers

`Holds P pt` says that a record of numbers stands for the point `P` of the curve.  The affine
functions take records that stand for points to a record that stands for their sum.
-/

namespace Curve

open BigNum BigNum.ByValue Limbs StateErr BnOps Weierstrass

variable {p : Nat} [hp : Fact p.Prime] {curve : EcCurve BigNum.Num} {a b : ZMod p}

/-- The record stands for the point: a finite point is its coordinates, the point at infinity is
flagged and has stale coordinates. -/
inductive Holds : (short a b).Point → EcPoint BigNum.Num → Prop
  | infinite {c e : Nat} {x y : ZMod p} (hcx : limbCount 64 p ≤ c) (hcy : limbCount 64 p ≤ e) :
      Holds 0 ⟨fe c x, fe e y, true⟩
  | finite {c e : Nat} {x y : ZMod p} {P : (short a b).Point} (hcx : limbCount 64 p ≤ c)
      (hcy : limbCount 64 p ≤ e) (h : HasCoords P x y) : Holds P ⟨fe c x, fe e y, false⟩

section Add

variable {c e k : Nat} {P Q : (short a b).Point}

theorem affineDouble_holds (h : NumCurve curve a b) (hcx : limbCount 64 p ≤ c)
    (hcy : limbCount 64 p ≤ e) (J : Junk) (i : Bool) {x y : ZMod p} (hP : HasCoords P x y) :
    ReturnsIn (Holds (P + P)) (affineDouble J curve (fe k x) ⟨fe c x, fe e y, i⟩) := by
  by_cases hy : y = 0
  · -- a point of order two
    subst hy
    rw [hP.double_of_zero, affineDouble_zero]
    exact ReturnsIn.of_eq rfl (Holds.infinite hcx hcy)
  · have h2 := two_ne_zero_p (p := p) h.three_lt
    have h2y : 2 * y ≠ 0 := mul_ne_zero h2 hy
    have hslope : (3 * x ^ 2 + a) * (2 * y)⁻¹ * (2 * y) = 3 * x ^ 2 + a := by
      rw [mul_assoc, inv_mul_cancel₀ h2y, mul_one]
    rw [affineDouble_fe h hcx hcy J i x x hy rfl rfl]
    exact ReturnsIn.of_eq rfl (Holds.finite hcx hcy (hP.double h2 hy hslope rfl))

theorem affineAddOther_holds (h : NumCurve curve a b) (hcx : limbCount 64 p ≤ c)
    (hcy : limbCount 64 p ≤ e) (J : Junk) (i j : Bool) {m : Nat} {x₁ y₁ x₂ y₂ : ZMod p}
    (hP : HasCoords P x₁ y₁) (hQ : HasCoords Q x₂ y₂) :
    ReturnsIn (Holds (P + Q))
      (affineAddOther J curve ⟨fe k x₂, fe m y₂, j⟩ ⟨fe c x₁, fe e y₁, i⟩) := by
  rw [affineAddOther_fe h]
  by_cases hx : x₂ - x₁ = 0
  · rw [if_pos hx]
    have hx' : x₂ = x₁ := sub_eq_zero.mp hx
    subst hx'
    by_cases hy : y₁ = y₂
    · subst hy
      rw [if_pos rfl, hQ.inj hP]
      exact affineDouble_holds h hcx hcy _ i hP
    · -- one `x` and two `y`: inverse points
      rw [if_neg hy, hP.add_of_ne hQ hy]
      exact ReturnsIn.of_eq rfl (Holds.infinite hcx hcy)
  · have hslope : (y₂ - y₁) * (x₂ - x₁)⁻¹ * (x₂ - x₁) = y₂ - y₁ := by
      rw [mul_assoc, inv_mul_cancel₀ hx, mul_one]
    have hne : x₁ ≠ x₂ := fun heq => hx (sub_eq_zero.mpr heq.symm)
    rw [if_neg hx, affineFinish_fe h hcx hcy _ i x₁ y₁ x₂ (y₂ - y₁) hx rfl rfl]
    exact ReturnsIn.of_eq rfl (Holds.finite hcx hcy (hP.add hQ hne hslope rfl))

end Add

variable {P Q : (short a b).Point} {s t : EcPoint BigNum.Num}

theorem affineAdd_self_holds (h : NumCurve curve a b) (hs : Holds P s) (J : Junk) :
    ReturnsIn (Holds (P + P)) (ecPointAffineAdd J curve .self s) := by
  cases hs with
  | infinite hcx hcy =>
    rw [add_zero]
    exact ReturnsIn.of_eq rfl (Holds.infinite hcx hcy)
  | finite hcx hcy hP => exact affineDouble_holds h hcx hcy J false hP

theorem affineAdd_holds (h : NumCurve curve a b) (hs : Holds P s) (ht : Holds Q t) (J : Junk) :
    ReturnsIn (Holds (P + Q)) (ecPointAffineAdd J curve (.val t) s) := by
  cases ht with
  | infinite =>
    rw [add_zero]
    exact ReturnsIn.of_eq rfl hs
  | finite hkx hky hQ =>
    cases hs with
    | infinite hcx hcy =>
      rw [zero_add]
      apply ReturnsIn.of_eq (t := ⟨fe _ _, fe _ _, false⟩) ?_ (Holds.finite hcx hcy hQ)
      simp only [ecPointAffineAdd, ecPointAssign, bind_apply, get_apply, fold_ok,
        Bool.false_eq_true, if_false, if_true, EcPoint.onX_apply, EcPoint.onY_apply,
        fe_assign _ _ hcx, fe_assign _ _ hcy, EcPoint.setInfinity_apply]
    | finite hcx hcy hP => exact affineAddOther_holds h hcx hcy J false false hP hQ

theorem negated_fe (h : NumCurve curve a b) {σ : Type} (J : Junk) {k m : Nat} (x y : ZMod p)
    (i : Bool) (f : EcPoint BigNum.Num → EStateM Err σ Unit) (s : σ) :
    (do
      let tm ← exec (EcPoint.uninit (J 0)) (ecPointInit curve.bitsDbl)
      let tm ← exec tm (EcPoint.onX (bnAssign (.val (fe k x))))
      let tm ← exec tm (EcPoint.onY (bnAssign (.val curve.p)))
      let tm ← exec tm (EcPoint.onY (bnModSub (J 1) (.val (fe m y)) (.val curve.p)))
      let tm ← exec tm (EcPoint.setInfinity i)
      f tm) s = f ⟨fe curve.dbl x, fe curve.dbl (-y), i⟩ s := by
  have hd := h.sizes.le_dbl
  have hcopy : bnAssign (.val ⟨curve.p.count, p⟩) (fe curve.dbl (0 : ZMod p)) =
      .ok () (⟨curve.dbl, p⟩ : BigNum.Num) := bnAssign_val hd
  simp only [ecPointInit, EcPoint.uninit, bind_apply, exec_apply, EcPoint.onX_apply,
    EcPoint.onY_apply, EcPoint.setInfinity_apply, fold_ok, h.init_eq]
  rw [h.p_eq]
  simp only [fe_assign _ _ hd, hcopy, fe_modNeg _ _ hd, fold_ok]

theorem ecPointAffineSub_fe (h : NumCurve curve a b) (J : Junk) {k m : Nat} (x y : ZMod p)
    (i : Bool) (s : EcPoint BigNum.Num) :
    ecPointAffineSub J curve ⟨fe k x, fe m y, i⟩ s =
      ecPointAffineAdd (J 2) curve (.val ⟨fe curve.dbl x, fe curve.dbl (-y), i⟩) s :=
  negated_fe h J x y i (fun tm => ecPointAffineAdd (J 2) curve (.val tm)) s

theorem affineSub_holds (h : NumCurve curve a b) (hs : Holds P s) (ht : Holds Q t) (J : Junk) :
    ReturnsIn (Holds (P - Q)) (ecPointAffineSub J curve t s) := by
  have hd := h.sizes.le_dbl
  rw [sub_eq_add_neg]
  cases ht with
  | infinite =>
    rw [ecPointAffineSub_fe h, neg_zero]
    exact affineAdd_holds h hs (Holds.infinite hd hd) _
  | finite hkx hky hQ =>
    rw [ecPointAffineSub_fe h]
    exact affineAdd_holds h hs (Holds.finite hd hd hQ.neg) _

end Curve
