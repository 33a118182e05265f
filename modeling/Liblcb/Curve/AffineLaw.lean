import Liblcb.BigNum.ModHom
import Liblcb.Curve.PointNum
import Liblcb.BigNum.Products

/-!
# Curve contexts and the points of a curve

What a curve context and a point record are when the code has made them, and which point of the
curve a record stands for.  The point functions commute with the maps of normalised records to
records and to numbers, so a run on numbers tells what the run on the records leaves.
-/

namespace Curve

open BigNum Limbs StateErr BnOps Weierstrass

/-! ## Records and numbers -/

/-- A curve whose numbers are normalised; `G` and `n` are not read by the point functions. -/
def EcCurve.lift (curve : EcCurve Bn) (hp : curve.p.WF) (ha : curve.a.WF) (hb : curve.b.WF) :
    EcCurve WfBn :=
  { m := curve.m, p := ⟨curve.p, hp⟩, a := ⟨curve.a, ha⟩, b := ⟨curve.b, hb⟩,
    G := ⟨⟨curve.p, hp⟩, ⟨curve.p, hp⟩, false⟩, n := ⟨curve.p, hp⟩, h := curve.h,
    algo := curve.algo, aM3 := curve.aM3 }

structure EcPoint.WF (pt : EcPoint Bn) : Prop where
  x : pt.x.WF
  y : pt.y.WF

structure EcPointProj.WF (pt : EcPointProj Bn) : Prop where
  x : pt.x.WF
  y : pt.y.WF
  z : pt.z.WF

def EcPoint.lift (pt : EcPoint Bn) (h : pt.WF) : EcPoint WfBn :=
  ⟨⟨pt.x, h.x⟩, ⟨pt.y, h.y⟩, pt.infinity⟩

def EcPointProj.lift (pt : EcPointProj Bn) (h : pt.WF) : EcPointProj WfBn :=
  ⟨⟨pt.x, h.x⟩, ⟨pt.y, h.y⟩, ⟨pt.z, h.z⟩⟩

abbrev PointImages : EStateM Err (EcPoint Bn) Unit → EStateM Err (EcPoint BigNum.Num) Unit → Prop :=
  Images (EcPoint.map bnHom) (EcPoint.map BigNum.absHom)

abbrev ProjImages :
    EStateM Err (EcPointProj Bn) Unit → EStateM Err (EcPointProj BigNum.Num) Unit → Prop :=
  Images (EcPointProj.map bnHom) (EcPointProj.map BigNum.absHom)

theorem PointImages.leaves {g : EStateM Err (EcPoint Bn) Unit}
    {k : EStateM Err (EcPoint BigNum.Num) Unit} (h : PointImages g k) {s : EcPoint Bn}
    (hs : s.WF) {T : EcPoint BigNum.Num → Prop}
    (hk : ReturnsIn T (k (s.map Bn.abs))) :
    ReturnsIn (fun t => t.WF ∧ T (t.map Bn.abs)) (g s) := by
  have hg := h.returnsIn (s := s.lift hs) hk
  apply ReturnsIn.mono hg
  rintro t ⟨u, rfl, hu⟩
  exact ⟨⟨u.x.wf, u.y.wf⟩, hu⟩

theorem ProjImages.leaves {g : EStateM Err (EcPointProj Bn) Unit}
    {k : EStateM Err (EcPointProj BigNum.Num) Unit} (h : ProjImages g k) {s : EcPointProj Bn}
    (hs : s.WF) {T : EcPointProj BigNum.Num → Prop} (hk : ReturnsIn T (k (s.map Bn.abs))) :
    ReturnsIn (fun t => t.WF ∧ T (t.map Bn.abs)) (g s) := by
  have hg := h.returnsIn (s := s.lift hs) hk
  apply ReturnsIn.mono hg
  rintro t ⟨u, rfl, hu⟩
  exact ⟨⟨u.x.wf, u.y.wf, u.z.wf⟩, hu⟩

/-! ## Contexts -/

/-- A curve context over a prime field of more than three elements, on a curve without a singular
point.  `EC_CURVE_FLAG_A_M3` is only set when it is true, the locals of the point functions fit
`BN_BIT_LEN`, and `p` has no more digits than they. -/
structure EcCurve.Valid (curve : EcCurve Bn) : Prop where
  p_wf : curve.p.WF
  a_wf : curve.a.WF
  b_wf : curve.b.WF
  three_lt : 3 < curve.p.value
  p_lt : curve.p.value < 2 ^ curve.m
  a_lt : curve.a.value < curve.p.value
  b_lt : curve.b.value < curve.p.value
  nonsingular : (4 * curve.a.value ^ 3 + 27 * curve.b.value ^ 2) % curve.p.value ≠ 0
  aM3 : curve.aM3 = true → curve.a.value + 3 = curve.p.value
  bits_le : curve.bitsDbl ≤ 2048
  p_count : curve.p.count ≤ curve.dbl

/-- A point record of the curve: the coordinates are below `p` and have room for any number below
it, and the point is on the curve or flagged infinite. -/
structure EcPoint.OnCurve (curve : EcCurve Bn) (pt : EcPoint Bn) : Prop where
  x_wf : pt.x.WF
  y_wf : pt.y.WF
  x_room : curve.p.digits ≤ pt.x.count
  y_room : curve.p.digits ≤ pt.y.count
  x_lt : pt.x.value < curve.p.value
  y_lt : pt.y.value < curve.p.value
  equation : pt.infinity = false → pt.y.value ^ 2 % curve.p.value =
    (pt.x.value ^ 3 + curve.a.value * pt.x.value + curve.b.value) % curve.p.value

def EcCurve.Valid.lift {curve : EcCurve Bn} (hc : curve.Valid) : EcCurve WfBn :=
  curve.lift hc.p_wf hc.a_wf hc.b_wf

theorem EcPoint.OnCurve.wf {curve : EcCurve Bn} {pt : EcPoint Bn} (h : pt.OnCurve curve) :
    pt.WF := ⟨h.x_wf, h.y_wf⟩

section Means

variable (curve : EcCurve Bn) [hp : Fact curve.p.value.Prime]

/-- The group of the points of the curve. -/
abbrev EcCurve.Points : Type :=
  (short (curve.a.value : ZMod curve.p.value) (curve.b.value : ZMod curve.p.value)).Point

/-- `pt` stands for the point `P`. -/
def EcPoint.Means (pt : EcPoint Bn) (P : curve.Points) : Prop :=
  (pt.infinity = true ∧ P = 0) ∨
    (pt.infinity = false ∧
      HasCoords P (pt.x.value : ZMod curve.p.value) (pt.y.value : ZMod curve.p.value))

variable {curve}

theorem EcCurve.Valid.numCurve (hc : curve.Valid) :
    NumCurve (curve.map Bn.abs) (curve.a.value : ZMod curve.p.value)
      (curve.b.value : ZMod curve.p.value) where
  p_val := rfl
  a_val := (ZMod.val_natCast_of_lt hc.a_lt).symm
  b_val := (ZMod.val_natCast_of_lt hc.b_lt).symm
  aM3 hM := by
    have hsum : ((curve.a.value + 3 : Nat) : ZMod curve.p.value) = 0 := by
      rw [hc.aM3 hM, ZMod.natCast_self]
    rw [Nat.cast_add, Nat.cast_ofNat] at hsum
    exact eq_neg_of_add_eq_zero_left hsum
  three_lt := hc.three_lt
  p_lt := hc.p_lt
  bits_le := hc.bits_le
  p_count := hc.p_count

omit hp in
theorem EcCurve.Valid.limbCount_eq (hc : curve.Valid) :
    limbCount 64 curve.p.value = curve.p.digits := hc.p_wf.digits_eq.symm

theorem EcCurve.Valid.of_abs_eq_fe (hc : curve.Valid) {u : Bn} {c : Nat} {v : ZMod curve.p.value}
    (hroom : limbCount 64 curve.p.value ≤ c) (hu : u.abs = fe c v) :
    curve.p.digits ≤ u.count ∧ u.value < curve.p.value ∧ (u.value : ZMod curve.p.value) = v := by
  have hcount : u.count = c := congrArg BigNum.Num.count hu
  have hval : u.value = v.val := congrArg BigNum.Num.val hu
  refine ⟨?_, ?_, ?_⟩
  · rw [hcount, ← hc.limbCount_eq]
    exact hroom
  · rw [hval]
    exact val_lt_p v
  · rw [hval, ZMod.natCast_zmod_val]

namespace EcPoint

variable {pt : EcPoint Bn} {P : curve.Points}

theorem OnCurve.exists_means (hc : curve.Valid) (h : pt.OnCurve curve) :
    ∃ P : curve.Points, pt.Means curve P := by
  cases hi : pt.infinity with
  | true => exact ⟨0, Or.inl ⟨hi, rfl⟩⟩
  | false =>
    have hΔ : 4 * (curve.a.value : ZMod curve.p.value) ^ 3 +
        27 * (curve.b.value : ZMod curve.p.value) ^ 2 ≠ 0 := by
      intro h0
      apply hc.nonsingular
      have hcast : ((4 * curve.a.value ^ 3 + 27 * curve.b.value ^ 2 : Nat) :
          ZMod curve.p.value) = 0 := by
        push_cast
        exact h0
      exact Nat.mod_eq_zero_of_dvd ((ZMod.natCast_eq_zero_iff _ _).mp hcast)
    have heq : (pt.y.value : ZMod curve.p.value) ^ 2 =
        (pt.x.value : ZMod curve.p.value) ^ 3 + curve.a.value * pt.x.value +
          curve.b.value := by
      have hcast := (ZMod.natCast_eq_natCast_iff' _ _ curve.p.value).mpr (h.equation hi)
      push_cast at hcast
      exact hcast
    obtain ⟨P, hP⟩ := hasCoords_of_equation hΔ (two_ne_zero_p hc.three_lt) heq
    exact ⟨P, Or.inr ⟨hi, hP⟩⟩

theorem OnCurve.holds (hc : curve.Valid) (h : pt.OnCurve curve) (hP : pt.Means curve P) :
    Holds P (pt.map Bn.abs) := by
  have hrx : limbCount 64 curve.p.value ≤ pt.x.count := hc.limbCount_eq ▸ h.x_room
  have hry : limbCount 64 curve.p.value ≤ pt.y.count := hc.limbCount_eq ▸ h.y_room
  have hx : pt.x.abs = fe pt.x.count (pt.x.value : ZMod curve.p.value) := fe_eq h.x_lt rfl
  have hy : pt.y.abs = fe pt.y.count (pt.y.value : ZMod curve.p.value) := fe_eq h.y_lt rfl
  unfold EcPoint.map
  rw [hx, hy]
  rcases hP with ⟨hi, rfl⟩ | ⟨hi, hP⟩
  · rw [hi]
    exact Holds.infinite hrx hry
  · rw [hi]
    exact Holds.finite hrx hry hP

theorem onCurve_of_holds (hc : curve.Valid) (hwf : pt.WF) (h : Holds P (pt.map Bn.abs)) :
    pt.OnCurve curve ∧ pt.Means curve P := by
  generalize hu : pt.map Bn.abs = u at h
  cases h with
  | infinite hcx hcy =>
    injection hu with hx hy hi
    obtain ⟨hrx, hltx, -⟩ := hc.of_abs_eq_fe hcx hx
    obtain ⟨hry, hlty, -⟩ := hc.of_abs_eq_fe hcy hy
    refine ⟨⟨hwf.x, hwf.y, hrx, hry, hltx, hlty, ?_⟩, Or.inl ⟨hi, rfl⟩⟩
    intro h
    rw [hi] at h
    nomatch h
  | finite hcx hcy hP =>
    injection hu with hx hy hi
    obtain ⟨hrx, hltx, hvx⟩ := hc.of_abs_eq_fe hcx hx
    obtain ⟨hry, hlty, hvy⟩ := hc.of_abs_eq_fe hcy hy
    rw [← hvx, ← hvy] at hP
    refine ⟨⟨hwf.x, hwf.y, hrx, hry, hltx, hlty, ?_⟩, Or.inr ⟨hi, hP⟩⟩
    intro _
    apply (ZMod.natCast_eq_natCast_iff' _ _ _).mp
    push_cast
    exact hP.equation

end EcPoint

end Means

end Curve

/-!
# The affine group law

`ec_point_affine_add` and `ec_point_affine_sub` on the point records of a curve: they return, and
what they leave stands for the sum or the difference in the group of the curve.
-/

namespace Curve

open BigNum BigNum.Bn StateErr BnOps Weierstrass

section

variable {curve : EcCurve Bn} [hp : Fact curve.p.value.Prime] {s t : EcPoint Bn}

/-- The run returns, and the record it leaves is one of the curve and stands for `P`. -/
def LeavesPoint (curve : EcCurve Bn) [Fact curve.p.value.Prime] (P : curve.Points)
    (r : EStateM.Result Err (EcPoint Bn) Unit) : Prop :=
  ReturnsIn (fun t => t.OnCurve curve ∧ t.Means curve P) r

theorem leavesPoint_of_num (hc : curve.Valid) {g : EStateM Err (EcPoint Bn) Unit}
    {k : EStateM Err (EcPoint BigNum.Num) Unit} (h : PointImages g k) (hs : s.OnCurve curve)
    {P : curve.Points} (hk : ReturnsIn (Holds P) (k (s.map Bn.abs))) :
    LeavesPoint curve P (g s) := by
  apply (h.leaves hs.wf hk).mono
  intro t ht
  exact EcPoint.onCurve_of_holds hc ht.1 ht.2

omit hp in
theorem affineAdd_self_images (J : Junk) (hc : curve.Valid) :
    PointImages (ecPointAffineAdd J curve .self)
      (ecPointAffineAdd J (curve.map Bn.abs) .self) :=
  ⟨_, ecPointAffineAdd_hom bnHom J hc.lift .self,
    ecPointAffineAdd_hom BigNum.absHom J hc.lift .self⟩

omit hp in
theorem affineAdd_images (J : Junk) (hc : curve.Valid) (ht : t.WF) :
    PointImages (ecPointAffineAdd J curve (.val t))
      (ecPointAffineAdd J (curve.map Bn.abs) (.val (t.map Bn.abs))) :=
  ⟨_, ecPointAffineAdd_hom bnHom J hc.lift (.val (t.lift ht)),
    ecPointAffineAdd_hom BigNum.absHom J hc.lift (.val (t.lift ht))⟩

omit hp in
theorem affineSub_images (J : Junk) (hc : curve.Valid) (ht : t.WF) :
    PointImages (ecPointAffineSub J curve t)
      (ecPointAffineSub J (curve.map Bn.abs) (t.map Bn.abs)) :=
  ⟨_, ecPointAffineSub_hom bnHom J hc.lift (t.lift ht),
    ecPointAffineSub_hom BigNum.absHom J hc.lift (t.lift ht)⟩

/-- The affine functions at the records `a` and `b` of the curve: each stands for a point, and
whichever points these are, the runs leave their sum, the double and the difference. -/
def AffineExact (J : Junk) (curve : EcCurve Bn) [Fact curve.p.value.Prime] (a b : EcPoint Bn) :
    Prop :=
  (∃ P : curve.Points, a.Means curve P) ∧ (∃ Q : curve.Points, b.Means curve Q) ∧
    ∀ P Q : curve.Points, a.Means curve P → b.Means curve Q →
      LeavesPoint curve (P + Q) (ecPointAffineAdd J curve (.val b) a) ∧
        LeavesPoint curve (P + P) (ecPointAffineAdd J curve .self a) ∧
        LeavesPoint curve (P - Q) (ecPointAffineSub J curve b a)

theorem affine_exact (J : Junk) (hc : curve.Valid) {a b : EcPoint Bn} (ha : a.OnCurve curve)
    (hb : b.OnCurve curve) : AffineExact J curve a b := by
  refine ⟨ha.exists_means hc, hb.exists_means hc, ?_⟩
  intro P Q hP hQ
  have hnum := hc.numCurve
  have hs := ha.holds hc hP
  have ht := hb.holds hc hQ
  exact ⟨leavesPoint_of_num hc (affineAdd_images J hc hb.wf) ha (affineAdd_holds hnum hs ht J),
    leavesPoint_of_num hc (affineAdd_self_images J hc) ha (affineAdd_self_holds hnum hs J),
    leavesPoint_of_num hc (affineSub_images J hc hb.wf) ha (affineSub_holds hnum hs ht J)⟩

end

/-- The curve `y ^ 2 = x ^ 3 - 3 * x + 3` over the field of seven elements. -/
def curveSeven : EcCurve Bn :=
  { m := 3, p := oneDigit 1 7, a := oneDigit 1 4, b := oneDigit 1 3,
    G := ⟨oneDigit 1 1, oneDigit 1 1, false⟩, n := oneDigit 1 6, h := 1, algo := .ecdsa,
    aM3 := true }

instance : Fact curveSeven.p.value.Prime := ⟨by decide⟩

theorem curveSeven_valid : curveSeven.Valid where
  p_wf := oneDigit_wf (by decide) (by decide) (by decide)
  a_wf := oneDigit_wf (by decide) (by decide) (by decide)
  b_wf := oneDigit_wf (by decide) (by decide) (by decide)
  three_lt := by decide
  p_lt := by decide
  a_lt := by decide
  b_lt := by decide
  nonsingular := by decide
  aM3 := by decide
  bits_le := by decide
  p_count := by decide

theorem onCurve_seven {x y : Digit} (hx : x ≠ 0) (hy : y ≠ 0)
    (hxlt : (oneDigit 1 x).value < 7) (hylt : (oneDigit 1 y).value < 7)
    (h : (oneDigit 1 y).value ^ 2 % 7 =
      ((oneDigit 1 x).value ^ 3 + 4 * (oneDigit 1 x).value + 3) % 7) :
    EcPoint.OnCurve curveSeven ⟨oneDigit 1 x, oneDigit 1 y, false⟩ where
  x_wf := oneDigit_wf (by decide) (by decide) hx
  y_wf := oneDigit_wf (by decide) (by decide) hy
  x_room := show 1 ≤ 1 from le_rfl
  y_room := show 1 ≤ 1 from le_rfl
  x_lt := hxlt
  y_lt := hylt
  equation _ := h

/-- The sum of `(1, 1)` and `(5, 1)`. -/
theorem affineExact_seven : AffineExact blank curveSeven
    ⟨oneDigit 1 1, oneDigit 1 1, false⟩ ⟨oneDigit 1 5, oneDigit 1 1, false⟩ :=
  affine_exact blank curveSeven_valid
    (onCurve_seven (by decide) (by decide) (by decide) (by decide) (by decide))
    (onCurve_seven (by decide) (by decide) (by decide) (by decide) (by decide))

end Curve
