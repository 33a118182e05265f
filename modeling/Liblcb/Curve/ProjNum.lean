import Liblcb.Curve.PointNum
import Liblcb.Curve.PointBuild

/-!
# Jacobian coordinates on numbers

`JacHolds P pt` says that a record of numbers holds a Jacobian triple for the point `P`.  The
projective functions take such records to a record that holds a triple for the sum.
-/

namespace Curve

open BigNum BigNum.ByValue Limbs StateErr BnOps Weierstrass

variable {p : Nat} [hp : Fact p.Prime] {curve : EcCurve BigNum.Num} {a b : ZMod p}

/-- The record holds a triple that stands for the point. -/
inductive JacHolds : (short a b).Point → EcPointProj BigNum.Num → Prop
  | mk {c e f : Nat} {X Y Z : ZMod p} {P : (short a b).Point} (hcx : limbCount 64 p ≤ c)
      (hcy : limbCount 64 p ≤ e) (hcz : limbCount 64 p ≤ f) (h : Represents P X Y Z) :
      JacHolds P ⟨fe c X, fe e Y, fe f Z⟩

@[simp] theorem isAtInfinity_fe (x y : BigNum.Num) (f : Nat) (Z : ZMod p) :
    (⟨x, y, fe f Z⟩ : EcPointProj BigNum.Num).isAtInfinity = decide (Z = 0) := fe_isZero Z

/-! ## Addition -/

section Add

variable {c e f k m n : Nat} {P Q : (short a b).Point} {X₁ Y₁ Z₁ X₂ Y₂ Z₂ : ZMod p}

theorem projDouble_holds (h : NumCurve curve a b) (hcx : limbCount 64 p ≤ c)
    (hcy : limbCount 64 p ≤ e) (hcz : limbCount 64 p ≤ f) (J : Junk) (hP : JacCoords P X₁ Y₁ Z₁) :
    ReturnsIn (JacHolds (P + P)) (projDouble J curve ⟨fe c X₁, fe e Y₁, fe f Z₁⟩) := by
  by_cases hy : Y₁ = 0
  · subst hy
    rw [hP.double_of_zero, projDouble_zero]
    exact ReturnsIn.of_eq rfl (.mk hcx hcy hcz (.infinite _ _))
  · have h2 := two_ne_zero_p (p := p) h.three_lt
    have hT : 2 * (((2 * Y₁) ^ 2) ^ 2 / 2) = (2 * Y₁) ^ 4 := by
      rw [mul_div_cancel₀ _ h2]
      ring
    rw [projDouble_fe h hcx hcy hcz J X₁ Z₁ hy rfl rfl rfl]
    exact ReturnsIn.of_eq rfl (.mk hcx hcy hcz (.finite (hP.double h2 hy rfl rfl hT rfl)))

theorem projAddOther_holds (h : NumCurve curve a b) (hcx : limbCount 64 p ≤ c)
    (hcy : limbCount 64 p ≤ e) (hcz : limbCount 64 p ≤ f) (J : Junk) (hP : JacCoords P X₁ Y₁ Z₁)
    (hQ : JacCoords Q X₂ Y₂ Z₂) : ReturnsIn (JacHolds (P + Q))
      (projAddOther J curve ⟨fe k X₂, fe m Y₂, fe n Z₂⟩ ⟨fe c X₁, fe e Y₁, fe f Z₁⟩) := by
  rw [projAddOther_fe h J rfl rfl rfl rfl]
  by_cases hx : X₁ * Z₂ ^ 2 = X₂ * Z₁ ^ 2
  · rw [if_pos hx]
    by_cases hy : Y₁ * Z₂ ^ 3 = Y₂ * Z₁ ^ 3
    · rw [if_pos hy, ← hP.eq_of_cross hQ hx hy]
      exact projDouble_holds h hcx hcy hcz _ hP
    · rw [if_neg hy, hP.add_of_ne hQ hx hy]
      exact ReturnsIn.of_eq rfl (.mk hcx hcy hcz (.infinite _ _))
  · rw [if_neg hx, projSum_fe h hcx hcy hcz _ X₁ Y₁ Z₁ X₂ Y₂ Z₂ _ _ _ _ rfl]
    exact ReturnsIn.of_eq rfl
      (.mk hcx hcy hcz (.finite (hP.add hQ rfl rfl rfl rfl hx rfl)))

end Add

variable {P Q : (short a b).Point} {s t : EcPointProj BigNum.Num}

theorem projAdd_self_holds (h : NumCurve curve a b) (hs : JacHolds P s) (J : Junk) :
    ReturnsIn (JacHolds (P + P)) (ecPointProjAdd J curve .self s) := by
  cases hs with
  | @mk c e f X Y Z _ hcx hcy hcz hP =>
    simp only [ecPointProjAdd, bind_apply, get_apply, fold_ok, isAtInfinity_fe,
      decide_eq_true_eq, StateErr.ite_apply, pure_apply]
    by_cases hZ : Z = 0
    · subst hZ
      rw [if_pos rfl, hP.eq_zero, add_zero]
      exact ReturnsIn.of_eq rfl (.mk hcx hcy hcz (.infinite X Y))
    · rw [if_neg hZ]
      exact projDouble_holds h hcx hcy hcz J (hP.coords hZ)

theorem projAdd_holds (h : NumCurve curve a b) (hs : JacHolds P s) (ht : JacHolds Q t)
    (J : Junk) : ReturnsIn (JacHolds (P + Q)) (ecPointProjAdd J curve (.val t) s) := by
  cases hs with
  | @mk c e f X₁ Y₁ Z₁ _ hcx hcy hcz hP =>
    cases ht with
    | @mk k m n X₂ Y₂ Z₂ _ hkx hky hkz hQ =>
      simp only [ecPointProjAdd, bind_apply, get_apply, fold_ok, isAtInfinity_fe,
        decide_eq_true_eq, StateErr.ite_apply, pure_apply]
      by_cases hZ₂ : Z₂ = 0
      · subst hZ₂
        rw [if_pos rfl, hQ.eq_zero, add_zero]
        exact ReturnsIn.of_eq rfl (.mk hcx hcy hcz hP)
      · rw [if_neg hZ₂]
        by_cases hZ₁ : Z₁ = 0
        · subst hZ₁
          have hassign : ecPointProjAssign ⟨fe k X₂, fe m Y₂, fe n Z₂⟩
              ⟨fe c X₁, fe e Y₁, fe f (0 : ZMod p)⟩ =
                .ok () (⟨fe c X₂, fe e Y₂, fe f Z₂⟩ : EcPointProj BigNum.Num) := by
            simp only [ecPointProjAssign, bind_apply, fold_ok, EcPointProj.onX_apply,
              EcPointProj.onY_apply, EcPointProj.onZ_apply, fe_assign _ _ hcx,
              fe_assign _ _ hcy, fe_assign _ _ hcz]
          rw [if_pos rfl, hP.eq_zero, zero_add, hassign]
          exact ReturnsIn.of_eq rfl (.mk hcx hcy hcz hQ)
        · rw [if_neg hZ₁]
          exact projAddOther_holds h hcx hcy hcz J (hP.coords hZ₁) (hQ.coords hZ₂)

/-! ## Subtraction -/

theorem ecPointProjInit_fe (h3 : 3 < p) {bits : Nat} (h0 : bits ≠ 0) (hle : bits ≤ 2048)
    (hroom : limbCount 64 p ≤ (bits + 63) / 64) (s : EcPointProj BigNum.Num) :
    ecPointProjInit bits s = .ok () ⟨fe ((bits + 63) / 64) (0 : ZMod p),
      fe ((bits + 63) / 64) (0 : ZMod p), fe ((bits + 63) / 64) (1 : ZMod p)⟩ := by
  have hinit : ∀ x : BigNum.Num, bnInit bits x = .ok () (fe ((bits + 63) / 64) (0 : ZMod p)) :=
    fe_init h0 hle
  simp only [ecPointProjInit, bind_apply, fold_ok, EcPointProj.onX_apply, EcPointProj.onY_apply,
    EcPointProj.onZ_apply, hinit, fe_assignDigit_one h3 _ hroom]

theorem ecPointProjSub_fe (h : NumCurve curve a b) (J : Junk) {k m n : Nat} (X Y Z : ZMod p)
    (s : EcPointProj BigNum.Num) :
    ecPointProjSub J curve ⟨fe k X, fe m Y, fe n Z⟩ s =
      ecPointProjAdd (J 2) curve
        (.val ⟨fe curve.dbl X, fe curve.dbl (-Y), fe curve.dbl Z⟩) s := by
  have hd := h.sizes.le_dbl
  have hinit : ∀ s : EcPointProj BigNum.Num, ecPointProjInit curve.bitsDbl s =
      .ok () ⟨fe curve.dbl (0 : ZMod p), fe curve.dbl (0 : ZMod p), fe curve.dbl (1 : ZMod p)⟩ :=
    ecPointProjInit_fe h.three_lt NumCurve.bitsDbl_ne_zero h.bits_le hd
  have hcopy : bnAssign (.val ⟨curve.p.count, p⟩) (fe curve.dbl (0 : ZMod p)) =
      .ok () (⟨curve.dbl, p⟩ : BigNum.Num) := bnAssign_val hd
  simp only [ecPointProjSub, bind_apply, exec_apply, hinit, fold_ok]
  rw [h.p_eq]
  simp only [EcPointProj.onX_apply, EcPointProj.onY_apply, EcPointProj.onZ_apply, fold_ok,
    fe_assign _ _ hd, hcopy, fe_modNeg _ _ hd]

theorem projSub_holds (h : NumCurve curve a b) (hs : JacHolds P s) (ht : JacHolds Q t)
    (J : Junk) : ReturnsIn (JacHolds (P - Q)) (ecPointProjSub J curve t s) := by
  have hd := h.sizes.le_dbl
  rw [sub_eq_add_neg]
  cases ht with
  | mk hkx hky hkz hQ =>
    rw [ecPointProjSub_fe h]
    exact projAdd_holds h hs (.mk hd hd hd hQ.neg) _

end Curve

/-!
# Mixed addition and the exchange with affine coordinates on numbers

An affine point is imported as a triple with `Z = 1` or all zero, a triple is exported to the
affine point it stands for, and both bodies of `ec_point_proj_add_mix` add an affine point.
-/

namespace Curve

open BigNum BigNum.ByValue Limbs StateErr BnOps Weierstrass

variable {p : Nat} [hp : Fact p.Prime] {curve : EcCurve BigNum.Num} {a b : ZMod p}

/-! ## Import and export -/

/-- The affine record shows the point; the coordinates of an infinite one may be anything. -/
inductive Shows : (short a b).Point → EcPoint BigNum.Num → Prop
  | infinite (x y : BigNum.Num) : Shows 0 ⟨x, y, true⟩
  | finite {c e : Nat} {x y : ZMod p} {P : (short a b).Point} (h : HasCoords P x y) :
      Shows P ⟨fe c x, fe e y, false⟩

variable {P Q : (short a b).Point}

theorem Holds.shows {s : EcPoint BigNum.Num} (h : Holds P s) : Shows P s := by
  cases h with
  | infinite => exact .infinite _ _
  | finite _ _ hP => exact .finite hP

theorem Shows.isEq {s t : EcPoint BigNum.Num} (hs : Shows P s) (ht : Shows P t) :
    ecPointIsEq s t = true := by
  cases hs with
  | infinite =>
    generalize hQ : (0 : (short a b).Point) = Q at ht
    cases ht with
    | infinite => rfl
    | finite h => exact absurd hQ.symm h.ne_zero
  | finite hP =>
    cases ht with
    | infinite => exact absurd rfl hP.ne_zero
    | finite h =>
      obtain ⟨rfl, rfl⟩ := hP.unique h
      have hself : ∀ (k m : Nat) (v : ZMod p), bnCmp (fe k v) (fe m v) = .eq :=
        fun k m v => (fe_cmp v v).mpr rfl
      rw [ecPointIsEq]
      simp only [hself]
      rfl

theorem projImport_holds (h3 : 3 < p) {t : EcPoint BigNum.Num} (ht : Holds P t)
    {s : EcPointProj BigNum.Num} (hx : limbCount 64 p ≤ s.x.count)
    (hy : limbCount 64 p ≤ s.y.count) (hz : limbCount 64 p ≤ s.z.count) :
    ReturnsIn (JacHolds P) (ecPointProjImportAffine t s) := by
  cases ht with
  | infinite =>
    apply ReturnsIn.of_eq (t := ⟨fe _ 0, fe _ 0, fe _ 0⟩) ?_ (.mk hx hy hz (.infinite _ _))
    simp only [ecPointProjImportAffine, if_true, bind_apply, fold_ok, EcPointProj.onX_apply,
      EcPointProj.onY_apply, EcPointProj.onZ_apply, assignZero_fe (p := p)]
  | finite _ _ hP =>
    apply ReturnsIn.of_eq (t := ⟨fe _ _, fe _ _, fe _ 1⟩) ?_ (.mk hx hy hz (.of_affine hP))
    simp only [ecPointProjImportAffine, Bool.false_eq_true, if_false, bind_apply, fold_ok,
      EcPointProj.onX_apply, EcPointProj.onY_apply, EcPointProj.onZ_apply, assign_fe _ hx,
      assign_fe _ hy, assignDigit_one_fe h3 hz]

theorem projExport_shows (h : NumCurve curve a b) {t : EcPointProj BigNum.Num} (ht : JacHolds P t)
    (J : Junk) {s : EcPoint BigNum.Num} (hx : limbCount 64 p ≤ s.x.count)
    (hy : limbCount 64 p ≤ s.y.count) :
    ReturnsIn (Shows P) (ecPointProjExportAffine J curve t s) := by
  cases ht with
  | @mk c e f X Y Z _ hcx hcy hcz hP =>
    by_cases hZ : Z = 0
    · subst hZ
      rw [hP.eq_zero]
      apply ReturnsIn.of_eq (t := ⟨s.x, s.y, true⟩) ?_ (.infinite _ _)
      simp only [ecPointProjExportAffine, isAtInfinity_fe, decide_true, if_true,
        EcPoint.setInfinity_apply]
    · have hnorm := ecPointProjNorm_fe h hcx hcy hcz J X Y hZ
      apply ReturnsIn.of_eq (t := ⟨fe s.x.count _, fe s.y.count _, false⟩) ?_
        (.finite (hP.coords hZ).coords)
      simp only [ecPointProjExportAffine, isAtInfinity_fe, hZ, decide_false, Bool.false_eq_true,
        if_false, bind_apply, exec_apply, hnorm, fold_ok, EcPoint.onX_apply, EcPoint.onY_apply,
        EcPoint.setInfinity_apply, assign_fe _ hx, assign_fe _ hy]

theorem viaProj_shows (h : NumCurve curve a b) (J : Junk)
    {act : EStateM Err (EcPointProj BigNum.Num) Unit} {t : EcPointProj BigNum.Num}
    (hact : ReturnsIn (JacHolds P) (act t)) {s : EcPoint BigNum.Num}
    (hx : limbCount 64 p ≤ s.x.count) (hy : limbCount 64 p ≤ s.y.count) :
    ReturnsIn (Shows P) (viaProj J curve act t s) := by
  obtain ⟨u, hu, hP⟩ := hact
  rw [viaProj, exec_bind_of_ok hu]
  exact projExport_shows h hP J hx hy

/-! ## Mixed addition -/

section Mix

variable {c e f k m : Nat} {X₁ Y₁ Z₁ x₂ y₂ : ZMod p}

theorem mixSum_fe (h : NumCurve curve a b) (hcx : limbCount 64 p ≤ c) (hcy : limbCount 64 p ≤ e)
    (hcz : limbCount 64 p ≤ f) (J : Junk) (t t₃ t₄ X₁ Y₁ Z₁ C D : ZMod p) {X₃ : ZMod p}
    (hX : X₃ = (D - Y₁) ^ 2 - (C - X₁) ^ 3 - 2 * (X₁ * (C - X₁) ^ 2)) :
    mixSum J curve (fe curve.dbl t) (fe curve.dbl (C - X₁)) (fe curve.dbl (D - Y₁))
        (fe curve.dbl t₃) (fe curve.dbl t₄) ⟨fe c X₁, fe e Y₁, fe f Z₁⟩ =
      .ok () ⟨fe c X₃, fe e ((D - Y₁) * (X₁ * (C - X₁) ^ 2 - X₃) - Y₁ * (C - X₁) ^ 3),
        fe f ((C - X₁) * Z₁)⟩ := by
  have hs := h.sizes
  have hd := hs.le_dbl
  have hX' : X₃ = (D - Y₁) ^ 2 - 2 * ((C - X₁) ^ 2 * X₁) - (C - X₁) ^ 2 * (C - X₁) := by
    rw [hX]
    ring
  have hY : (D - Y₁) * (X₁ * (C - X₁) ^ 2 - X₃) - Y₁ * (C - X₁) ^ 3 =
      ((C - X₁) ^ 2 * X₁ - X₃) * (D - Y₁) - (C - X₁) ^ 2 * (C - X₁) * Y₁ := by ring
  have hp := h.p_eq
  generalize curve.p.count = q at hp hs
  unfold mixSum
  rw [bind_apply, get_apply, fold_ok, hp, exec_bind_of_ok (fe_assign _ _ hd),
    exec_bind_of_ok (fe_modSquare _ _ hs), exec_bind_of_ok (fe_assign _ _ hd),
    exec_bind_of_ok (fe_modMult _ _ _ hs), exec_bind_of_ok (fe_modMult _ _ _ hs),
    exec_bind_of_ok (fe_modMult _ _ _ hs)]
  rw [bind_apply, EcPointProj.onZ_apply, fe_assign _ _ hcz, fold_ok, fold_ok,
    exec_bind_of_ok (fe_assign _ _ hd), exec_bind_of_ok (fe_modMultDigit_two _ _ hs),
    exec_bind_of_ok (fe_assign _ _ hd), exec_bind_of_ok (fe_modSquare _ _ hs),
    exec_bind_of_ok (fe_modSub _ _ _ hd), exec_bind_of_ok (fe_modSub _ _ _ hd), ← hX']
  rw [bind_apply, EcPointProj.onX_apply, fe_assign _ _ hcx, fold_ok, fold_ok, bind_apply, get_apply,
    fold_ok, exec_bind_of_ok (fe_modSub _ _ _ hd), exec_bind_of_ok (fe_modMult _ _ _ hs),
    exec_bind_of_ok (fe_modMult _ _ _ hs), exec_bind_of_ok (fe_modSub _ _ _ hd), ← hY]
  rw [EcPointProj.onY_apply, fe_assign _ _ hcy, fold_ok]

theorem mixAddOther_fe (h : NumCurve curve a b) (J : Junk) (i : Bool) {C D : ZMod p}
    (hC : C = x₂ * Z₁ ^ 2) (hD : D = y₂ * Z₁ ^ 3) :
    mixAddOther J curve ⟨fe k x₂, fe m y₂, i⟩ ⟨fe c X₁, fe e Y₁, fe f Z₁⟩ =
      if C - X₁ = 0 then
        if D - Y₁ = 0 then ecPointProjAdd (J 11) curve .self ⟨fe c X₁, fe e Y₁, fe f Z₁⟩
        else .ok () ⟨fe c X₁, fe e Y₁, fe f (0 : ZMod p)⟩
      else mixSum (J 12) curve (fe curve.dbl (0 : ZMod p)) (fe curve.dbl (C - X₁))
        (fe curve.dbl (D - Y₁)) (fe curve.dbl (0 : ZMod p)) (fe curve.dbl (0 : ZMod p))
        ⟨fe c X₁, fe e Y₁, fe f Z₁⟩ := by
  have hs := h.sizes
  have hd := hs.le_dbl
  have hC' : Z₁ ^ 2 * x₂ = C := by rw [hC, mul_comm]
  have hD' : Z₁ ^ 2 * Z₁ * y₂ = D := by
    rw [hD]
    ring
  have hp := h.p_eq
  generalize curve.p.count = q at hp hs
  have hzero : EcPointProj.onZ bnAssignZero ⟨fe c X₁, fe e Y₁, fe f Z₁⟩ =
      .ok () (⟨fe c X₁, fe e Y₁, fe f (0 : ZMod p)⟩ : EcPointProj BigNum.Num) := by
    rw [EcPointProj.onZ_apply, fe_assignZero, fold_ok]
  unfold mixAddOther
  rw [bind_apply, get_apply, fold_ok, hp, bind_of_ok (h.new_eq _ _), bind_of_ok (h.new_eq _ _),
    bind_of_ok (h.new_eq _ _), bind_of_ok (h.new_eq _ _), bind_of_ok (h.new_eq _ _),
    exec_bind_of_ok (fe_assign _ _ hd), exec_bind_of_ok (fe_modSquare _ _ hs),
    exec_bind_of_ok (fe_assign _ _ hd), exec_bind_of_ok (fe_modMult _ _ _ hs),
    exec_bind_of_ok (fe_modMult _ _ _ hs), exec_bind_of_ok (fe_modMult _ _ _ hs), hC', hD',
    exec_bind_of_ok (fe_modSub _ _ _ hd), exec_bind_of_ok (fe_modSub _ _ _ hd)]
  simp only [StateErr.ite_apply, fe_isZero, decide_eq_true_eq, hzero]

theorem mixAddOther_holds (h : NumCurve curve a b) (hcx : limbCount 64 p ≤ c)
    (hcy : limbCount 64 p ≤ e) (hcz : limbCount 64 p ≤ f) (J : Junk) (i : Bool)
    (hP : JacCoords P X₁ Y₁ Z₁) (hQ : HasCoords Q x₂ y₂) : ReturnsIn (JacHolds (P + Q))
      (mixAddOther J curve ⟨fe k x₂, fe m y₂, i⟩ ⟨fe c X₁, fe e Y₁, fe f Z₁⟩) := by
  have hQ' := JacCoords.of_affine hQ
  rw [mixAddOther_fe h J i rfl rfl]
  by_cases hx : x₂ * Z₁ ^ 2 - X₁ = 0
  · have hcross : X₁ * 1 ^ 2 = x₂ * Z₁ ^ 2 := by
      rw [one_pow, mul_one]
      exact (sub_eq_zero.mp hx).symm
    rw [if_pos hx]
    by_cases hy : y₂ * Z₁ ^ 3 - Y₁ = 0
    · have hcross' : Y₁ * 1 ^ 3 = y₂ * Z₁ ^ 3 := by
        rw [one_pow, mul_one]
        exact (sub_eq_zero.mp hy).symm
      rw [if_pos hy, ← hP.eq_of_cross hQ' hcross hcross']
      exact projAdd_self_holds h (.mk hcx hcy hcz (.finite hP)) _
    · have hcross' : Y₁ * 1 ^ 3 ≠ y₂ * Z₁ ^ 3 := by
        rw [one_pow, mul_one]
        exact fun heq => hy (sub_eq_zero.mpr heq.symm)
      rw [if_neg hy, hP.add_of_ne hQ' hcross hcross']
      exact ReturnsIn.of_eq rfl (.mk hcx hcy hcz (.infinite _ _))
  · have hne : X₁ ≠ x₂ * Z₁ ^ 2 := fun heq => hx (sub_eq_zero.mpr heq.symm)
    rw [if_neg hx, mixSum_fe h hcx hcy hcz _ _ _ _ X₁ Y₁ Z₁ _ _ rfl]
    exact ReturnsIn.of_eq rfl
      (.mk hcx hcy hcz (.finite (hP.add_affine hQ rfl rfl hne rfl)))

end Mix

section Build

variable {build : Build} {s : EcPointProj BigNum.Num} {t : EcPoint BigNum.Num}

theorem projAddMix_holds (h : NumCurve curve a b) (hs : JacHolds P s) (ht : Holds Q t)
    (J : Junk) : ReturnsIn (JacHolds (P + Q)) (ecPointProjAddMix build J curve t s) := by
  unfold ecPointProjAddMix
  cases build.addMix with
  | true =>
    rw [if_pos rfl]
    cases hs with
    | @mk c e f X Y Z _ hcx hcy hcz hP =>
      -- a point at infinity takes the other one as it is
      have himport : Z = 0 → ReturnsIn (JacHolds (P + Q))
          (ecPointProjImportAffine t ⟨fe c X, fe e Y, fe f Z⟩) := by
        intro hZ
        subst hZ
        rw [hP.eq_zero, zero_add]
        exact projImport_holds h.three_lt ht hcx hcy hcz
      cases ht with
      | infinite =>
        rw [if_pos rfl, add_zero]
        exact ReturnsIn.of_eq rfl (.mk hcx hcy hcz hP)
      | finite hkx hky hQ =>
        rw [if_neg Bool.false_ne_true]
        simp only [bind_apply, get_apply, fold_ok, isAtInfinity_fe, decide_eq_true_eq,
          StateErr.ite_apply]
        by_cases hZ : Z = 0
        · rw [if_pos hZ]
          exact himport hZ
        · rw [if_neg hZ]
          exact mixAddOther_holds h hcx hcy hcz J false (hP.coords hZ) hQ
  | false =>
    have hm0 : curve.m ≠ 0 := by
      intro h0
      have hlt := h.p_lt
      have h3 := h.three_lt
      rw [h0, pow_zero] at hlt
      omega
    have hle : curve.m ≤ 2048 := by
      have hbits := h.bits_le
      unfold EcCurve.bitsDbl at hbits
      omega
    have hinit := ecPointProjInit_fe (p := p) h.three_lt hm0 hle h.digits_le
    obtain ⟨u, hu, hQ⟩ := projImport_holds h.three_lt ht (s := ⟨fe ((curve.m + 63) / 64)
      (0 : ZMod p), fe ((curve.m + 63) / 64) (0 : ZMod p), fe ((curve.m + 63) / 64) (1 : ZMod p)⟩)
      h.digits_le h.digits_le h.digits_le
    rw [if_neg Bool.false_ne_true, exec_bind_of_ok (hinit _), exec_bind_of_ok hu]
    exact projAdd_holds h hs hQ _

theorem ecPointProjSubMix_fe (h : NumCurve curve a b) (J : Junk) {k m : Nat} (x y : ZMod p)
    (i : Bool) (s : EcPointProj BigNum.Num) :
    ecPointProjSubMix build J curve ⟨fe k x, fe m y, i⟩ s =
      ecPointProjAddMix build (J 2) curve ⟨fe curve.dbl x, fe curve.dbl (-y), i⟩ s :=
  negated_fe h J x y i (fun tm => ecPointProjAddMix build (J 2) curve tm) s

theorem projSubMix_holds (h : NumCurve curve a b) (hs : JacHolds P s) (ht : Holds Q t)
    (J : Junk) : ReturnsIn (JacHolds (P - Q)) (ecPointProjSubMix build J curve t s) := by
  have hd := h.sizes.le_dbl
  rw [sub_eq_add_neg]
  cases ht with
  | infinite =>
    rw [ecPointProjSubMix_fe h, neg_zero]
    exact projAddMix_holds h hs (.infinite hd hd) _
  | finite _ _ hQ =>
    rw [ecPointProjSubMix_fe h]
    exact projAddMix_holds h hs (.finite hd hd hQ.neg) _

end Build

end Curve

/-!
# Repeated doubling on numbers

The loop of `ec_point_proj_dbl_n` carries twice the `y` of the point and `Z ^ 4` from round to
round.  A round doubles the point it stands for, also at the point at infinity and at a point of
order two, and both bodies leave the point times `2 ^ n`.
-/

namespace Curve

open BigNum BigNum.ByValue Limbs StateErr BnOps Weierstrass

variable {p : Nat} [hp : Fact p.Prime] {curve : EcCurve BigNum.Num} {a b : ZMod p}

theorem nsmul_double {G : Type} [AddMonoid G] (P : G) (n : Nat) :
    2 ^ n • (P + P) = 2 ^ (n + 1) • P := by
  rw [← two_nsmul, ← mul_nsmul', pow_succ, mul_comm]

/-- The locals between two rounds. -/
inductive LocalsHold (d : Nat) (V W : ZMod p) : DblLocals BigNum.Num → Prop
  | mk (y₂ t tA tB : ZMod p) :
      LocalsHold d V W ⟨fe d V, fe d y₂, fe d t, fe d tA, fe d tB, fe d W⟩

section Round

variable {c e f d : Nat} {V W X Z : ZMod p}

theorem dblSlope_fe (h : NumCurve curve a b) (hs : Sizes p curve.p.count d) (J : Junk) {k : Nat}
    (X W t tA : ZMod p) (Y y₂ tB : BigNum.Num) (s : EcPointProj BigNum.Num) :
    ∃ w : ZMod p, dblSlope J curve (fe k X) ⟨Y, y₂, fe d t, fe d tA, tB, fe d W⟩ s =
      .ok (fe d w, fe d (3 * X ^ 2 + a * W)) s := by
  have hd := hs.le_dbl
  cases hM : curve.aM3 with
  | true =>
    have hslope : 3 * (X ^ 2 - W) = 3 * X ^ 2 + a * W := by
      rw [h.aM3 hM]
      ring
    refine ⟨t, ?_⟩
    simp only [dblSlope, hM, if_true]
    rw [h.p_eq]
    simp only [bind_apply, exec_apply, fold_ok, fe_assign _ _ hd, fe_modSquare _ _ hs,
      fe_modSub _ _ _ hd, fe_modMultDigit_three _ _ hs, pure_apply, hslope]
  | false =>
    simp only [dblSlope, hM, Bool.false_eq_true, if_false]
    rw [h.p_eq, h.a_eq]
    simp only [bind_apply, exec_apply, fold_ok, fe_assign _ _ hd, fe_modSquare _ _ hs,
      fe_modMultDigit_three _ _ hs, fe_isZero, StateErr.ite_apply, decide_eq_true_eq]
    by_cases ha : a = 0
    · refine ⟨t, ?_⟩
      rw [if_pos ha, pure_apply, ha, zero_mul, add_zero]
    · refine ⟨a * W, ?_⟩
      rw [if_neg ha, fe_modMult _ _ _ hs, fold_ok, fold_ok, fe_modAdd _ _ hs, fold_ok, fold_ok,
        pure_apply]

theorem dblRound_fe (h : NumCurve curve a b) (hs : Sizes p curve.p.count d)
    (hcx : limbCount 64 p ≤ c) (hcz : limbCount 64 p ≤ f) (J : Junk) (last : Bool)
    {l : DblLocals BigNum.Num} (hl : LocalsHold d V W l) {M S X₃ : ZMod p}
    (hM : M = 3 * X ^ 2 + a * W) (hS : S = X * V ^ 2) (hX : X₃ = M ^ 2 - S - S) (Y : BigNum.Num) :
    ∃ l', dblRound J curve last l ⟨fe c X, Y, fe f Z⟩ = .ok l' ⟨fe c X₃, Y, fe f (Z * V)⟩ ∧
      LocalsHold d (M * 2 * (S - X₃) - (V ^ 2) ^ 2)
        (if last then W else W * (V ^ 2) ^ 2) l' := by
  have hd := hs.le_dbl
  cases hl with
  | mk y₂ t tA tB =>
    obtain ⟨w, hslope⟩ := dblSlope_fe (k := c) h hs (J 0) X W t tA (fe d V) (fe d y₂) (fe d tB)
      ⟨fe c X, Y, fe f Z⟩
    have hp := h.p_eq
    generalize curve.p.count = q at hp hs
    rw [← hM] at hslope
    have hY : M * 2 * (S - X₃) - (V ^ 2) ^ 2 = 2 * M * (S - X₃) - (V ^ 2) ^ 2 := by ring
    have hcarry : (if last then pure () else bnModMult (J 8) (.val (fe d ((V ^ 2) ^ 2)))
        (.val ⟨q, p⟩) : BnM BigNum.Num Unit) (fe d W) =
          .ok () (fe d (if last then W else W * (V ^ 2) ^ 2)) := by
      cases last with
      | true => rfl
      | false => exact fe_modMult _ _ _ hs
    refine ⟨⟨fe d (M * 2 * (S - X₃) - (V ^ 2) ^ 2), fe d ((V ^ 2) ^ 2), fe d (V * Z),
      fe d (M * 2 * (S - X₃) - (V ^ 2) ^ 2), fe d (S - X₃),
      fe d (if last then W else W * (V ^ 2) ^ 2)⟩, ?_, .mk _ _ _ _⟩
    unfold dblRound
    rw [bind_apply, get_apply, fold_ok, bind_of_ok hslope, hp]
    rw [exec_bind_of_ok (fe_assign _ _ hd), exec_bind_of_ok (fe_modSquare _ _ hs),
      exec_bind_of_ok (fe_assign _ _ hd), exec_bind_of_ok (fe_modMult _ _ _ hs), ← hS,
      exec_bind_of_ok (fe_assign _ _ hd), exec_bind_of_ok (fe_modSquare _ _ hs),
      exec_bind_of_ok (fe_modSub _ _ _ hd), exec_bind_of_ok (fe_modSub _ _ _ hd), ← hX]
    rw [bind_apply, EcPointProj.onX_apply, fe_assign _ _ hcx, fold_ok, fold_ok,
      exec_bind_of_ok (fe_assign _ _ hd), exec_bind_of_ok (fe_modMult _ _ _ hs)]
    rw [bind_apply, EcPointProj.onZ_apply, fe_assign _ _ hcz, fold_ok, fold_ok,
      exec_bind_of_ok (fe_modSquare _ _ hs), exec_bind_of_ok hcarry]
    rw [bind_apply, get_apply, fold_ok, exec_bind_of_ok (fe_modSub _ _ _ hd),
      exec_bind_of_ok (fe_modMultDigit_two _ _ hs), exec_bind_of_ok (fe_modMult _ _ _ hs),
      exec_bind_of_ok (fe_modSub _ _ _ hd), exec_bind_of_ok (fe_assign _ _ hd), pure_apply, hY,
      mul_comm V Z]

theorem dblRound_holds (h : NumCurve curve a b) (hs : Sizes p curve.p.count d)
    (hcx : limbCount 64 p ≤ c) (hcz : limbCount 64 p ≤ f) (J : Junk) (last : Bool)
    {l : DblLocals BigNum.Num} (hl : LocalsHold d V W l) (hW : W = Z ^ 4)
    {P : (short a b).Point} (hP : Represents P X (V / 2) Z) (Y : BigNum.Num) :
    ∃ (l' : DblLocals BigNum.Num) (V' W' X' Z' : ZMod p),
      dblRound J curve last l ⟨fe c X, Y, fe f Z⟩ = .ok l' ⟨fe c X', Y, fe f Z'⟩ ∧
        LocalsHold d V' W' l' ∧ Represents (P + P) X' (V' / 2) Z' ∧
        (last = false → W' = Z' ^ 4) := by
  have h2 := two_ne_zero_p (p := p) h.three_lt
  obtain ⟨l', hrun, hl'⟩ := dblRound_fe (Z := Z) h hs hcx hcz J last hl rfl rfl rfl Y
  refine ⟨l', _, _, _, _, hrun, hl', hP.double_carried h2 (by rw [hW]) rfl rfl, ?_⟩
  intro hlast
  rw [hlast, if_neg Bool.false_ne_true, hW]
  ring

theorem dblLoop_holds (h : NumCurve curve a b) (hs : Sizes p curve.p.count d)
    (hcx : limbCount 64 p ≤ c) (hcz : limbCount 64 p ≤ f) (J : Junk) (n : Nat)
    {l : DblLocals BigNum.Num} (hl : LocalsHold d V W l) (hW : n ≠ 0 → W = Z ^ 4)
    {P : (short a b).Point} (hP : Represents P X (V / 2) Z) (Y : BigNum.Num) :
    ∃ (l' : DblLocals BigNum.Num) (V' W' X' Z' : ZMod p),
      dblLoop J curve n l ⟨fe c X, Y, fe f Z⟩ = .ok l' ⟨fe c X', Y, fe f Z'⟩ ∧
        LocalsHold d V' W' l' ∧ Represents (2 ^ n • P) X' (V' / 2) Z' := by
  induction n generalizing l V W X Z P with
  | zero =>
    rw [pow_zero, one_nsmul]
    exact ⟨l, V, W, X, Z, rfl, hl, hP⟩
  | succ n ih =>
    obtain ⟨l₁, V₁, W₁, X₁, Z₁, hrun, hl₁, hP₁, hW₁⟩ := dblRound_holds h hs hcx hcz (J n)
      (n == 0) hl (hW n.succ_ne_zero) hP Y
    have hcarried : n ≠ 0 → W₁ = Z₁ ^ 4 := fun hn => hW₁ (beq_eq_false_iff_ne.mpr hn)
    obtain ⟨l₂, V₂, W₂, X₂, Z₂, hloop, hl₂, hP₂⟩ := ih hl₁ hcarried hP₁
    rw [nsmul_double] at hP₂
    refine ⟨l₂, V₂, W₂, X₂, Z₂, ?_, hl₂, hP₂⟩
    rw [dblLoop, bind_of_ok hrun]
    exact hloop

end Round

/-! ## The two bodies -/

variable {P : (short a b).Point} {s : EcPointProj BigNum.Num}

omit hp in
theorem NumCurve.sizesRepeat (h : NumCurve curve a b) :
    Sizes p curve.p.count ((curve.bitsRepeat + 63) / 64) := by
  have hs := h.sizes
  have hle : curve.dbl ≤ (curve.bitsRepeat + 63) / 64 := by
    unfold EcCurve.dbl EcCurve.bitsRepeat
    omega
  exact ⟨hs.three_lt, hs.digits_le, hs.dbl.trans hle, hs.q_le.trans hle⟩

theorem dblRepeat_holds (h : NumCurve curve a b) (hbits : curve.bitsRepeat ≤ 2048)
    (hs : JacHolds P s) (J : Junk) {n : Nat} (hn : n ≠ 0) :
    ReturnsIn (JacHolds (2 ^ n • P)) (dblRepeat J curve n s) := by
  have hz := h.sizesRepeat
  have hd := hz.le_dbl
  have h0 : curve.bitsRepeat ≠ 0 := by
    unfold EcCurve.bitsRepeat
    omega
  have hnew : ∀ J, ∀ s : EcPointProj BigNum.Num, (newBn J curve.bitsRepeat :
      EStateM Err (EcPointProj BigNum.Num) BigNum.Num) s =
        .ok (fe ((curve.bitsRepeat + 63) / 64) (0 : ZMod p)) s := fun J s => fe_new J h0 hbits s
  generalize (curve.bitsRepeat + 63) / 64 = d at hz hd hnew
  cases hs with
  | @mk c e f X Y Z _ hcx hcy hcz hP =>
    simp only [dblRepeat, bind_apply, get_apply, fold_ok, fe_isZero, isAtInfinity_fe,
      decide_eq_true_eq, StateErr.ite_apply, hn, false_or, pure_apply, hnew]
    by_cases hY : Y = 0
    · -- the double of a point of order two is infinite, and so are all after it
      subst hY
      obtain ⟨n, rfl⟩ := Nat.exists_eq_succ_of_ne_zero hn
      rw [if_pos rfl, ← nsmul_double, hP.double_of_zero, nsmul_zero, EcPointProj.onZ_apply,
        fe_assignZero, fold_ok]
      exact ReturnsIn.of_eq rfl (.mk hcx hcy hcz (.infinite _ _))
    · rw [if_neg hY]
      by_cases hZ : Z = 0
      · subst hZ
        rw [if_pos rfl, hP.eq_zero, nsmul_zero]
        exact ReturnsIn.of_eq rfl (.mk hcx hcy hcz (.infinite _ _))
      · have h2 := two_ne_zero_p (p := p) h.three_lt
        have h4 : 4 < 2 ^ 64 := by decide
        have hV : 2 * Y / 2 = Y := mul_div_cancel_left₀ Y h2
        obtain ⟨l, V, W, X', Z', hloop, hl, hP'⟩ := dblLoop_holds h hz hcx hcz (J 8) n
          (.mk 0 0 0 0) (fun _ => rfl) (V := 2 * Y) (by rw [hV]; exact hP) (fe e Y)
        have hhalf := projHalve_fe h hz V
        rw [if_neg hZ, h.p_eq]
        simp only [exec_apply, fe_assign _ _ hd, fe_modMultDigit_two _ _ hz, fold_ok,
          fe_modExpDigit _ h4 _ hz, hloop]
        cases hl with
        | mk =>
          rw [hhalf, fold_ok, fold_ok, EcPointProj.onY_apply, fe_assign _ _ hcy, fold_ok]
          exact ReturnsIn.of_eq rfl (.mk hcx hcy hcz hP')

theorem dblAdd_holds (h : NumCurve curve a b) (hs : JacHolds P s) (J : Junk) (n : Nat) :
    ReturnsIn (JacHolds (2 ^ n • P)) (dblAdd J curve n s) := by
  induction n generalizing s P with
  | zero =>
    rw [pow_zero, one_nsmul]
    exact ReturnsIn.of_eq rfl hs
  | succ n ih =>
    rw [← nsmul_double]
    exact (projAdd_self_holds h hs (J n)).bind (fun t ht => ih ht)

theorem projDblN_holds (h : NumCurve curve a b) {build : Build}
    (hbits : build.repeatDouble = true → curve.bitsRepeat ≤ 2048) (hs : JacHolds P s) (J : Junk)
    {n : Nat} (hn : n ≠ 0) :
    ReturnsIn (JacHolds (2 ^ n • P)) (ecPointProjDblN build J curve n s) := by
  unfold ecPointProjDblN
  cases hr : build.repeatDouble with
  | true =>
    rw [if_pos rfl]
    exact dblRepeat_holds h (hbits hr) hs J hn
  | false =>
    rw [if_neg Bool.false_ne_true]
    exact dblAdd_holds h hs J n

theorem affineDblN_holds (h : NumCurve curve a b) {s : EcPoint BigNum.Num} (hs : Holds P s)
    (J : Junk) (n : Nat) : ReturnsIn (Holds (2 ^ n • P)) (ecPointAffineDblN J curve n s) := by
  induction n generalizing s P with
  | zero =>
    rw [pow_zero, one_nsmul]
    exact ReturnsIn.of_eq rfl hs
  | succ n ih =>
    rw [← nsmul_double]
    exact (affineAdd_self_holds h hs (J n)).bind (fun t ht => ih ht)

end Curve
