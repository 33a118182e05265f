import Liblcb.BigNum.ModHom
import Liblcb.Curve.Point

/-!
# Point arithmetic commutes with maps of numbers

A map of numbers maps points coordinate by coordinate, and the point functions run on the images as
they run on the points.
-/

namespace Curve

open BigNum StateErr BnOps

variable {B B' : Type}

def EcPoint.map (f : B → B') (pt : EcPoint B) : EcPoint B' := ⟨f pt.x, f pt.y, pt.infinity⟩

def EcPointProj.map (f : B → B') (pt : EcPointProj B) : EcPointProj B' :=
  ⟨f pt.x, f pt.y, f pt.z⟩

def EcCurve.map (f : B → B') (curve : EcCurve B) : EcCurve B' :=
  { m := curve.m, p := f curve.p, a := f curve.a, b := f curve.b, G := curve.G.map f,
    n := f curve.n, h := curve.h, algo := curve.algo, aM3 := curve.aM3 }

section Fields

variable (f : B → B')

@[simp] theorem EcPoint.map_x (pt : EcPoint B) : (pt.map f).x = f pt.x := rfl

@[simp] theorem EcPoint.map_y (pt : EcPoint B) : (pt.map f).y = f pt.y := rfl

@[simp] theorem EcPoint.map_infinity (pt : EcPoint B) : (pt.map f).infinity = pt.infinity := rfl

@[simp] theorem EcPoint.map_mk (x y : B) (i : Bool) :
    EcPoint.map f ⟨x, y, i⟩ = ⟨f x, f y, i⟩ := rfl

@[simp] theorem EcPointProj.map_x (pt : EcPointProj B) : (pt.map f).x = f pt.x := rfl

@[simp] theorem EcPointProj.map_y (pt : EcPointProj B) : (pt.map f).y = f pt.y := rfl

@[simp] theorem EcPointProj.map_z (pt : EcPointProj B) : (pt.map f).z = f pt.z := rfl

@[simp] theorem EcPointProj.map_mk (x y z : B) :
    EcPointProj.map f ⟨x, y, z⟩ = ⟨f x, f y, f z⟩ := rfl

@[simp] theorem EcCurve.map_m (curve : EcCurve B) : (curve.map f).m = curve.m := rfl

@[simp] theorem EcCurve.map_p (curve : EcCurve B) : (curve.map f).p = f curve.p := rfl

@[simp] theorem EcCurve.map_a (curve : EcCurve B) : (curve.map f).a = f curve.a := rfl

@[simp] theorem EcCurve.map_b (curve : EcCurve B) : (curve.map f).b = f curve.b := rfl

@[simp] theorem EcCurve.map_aM3 (curve : EcCurve B) : (curve.map f).aM3 = curve.aM3 := rfl

end Fields

/-! ## Components -/

section OnField

variable {α : Type}

@[simp] theorem EcPoint.onX_apply (act : BnM B α) (s : EcPoint B) :
    EcPoint.onX act s = fold (act s.x) (fun a t => .ok a ⟨t, s.y, s.infinity⟩)
      (fun e t => .error e ⟨t, s.y, s.infinity⟩) := rfl

@[simp] theorem EcPoint.onY_apply (act : BnM B α) (s : EcPoint B) :
    EcPoint.onY act s = fold (act s.y) (fun a t => .ok a ⟨s.x, t, s.infinity⟩)
      (fun e t => .error e ⟨s.x, t, s.infinity⟩) := rfl

@[simp] theorem EcPoint.setInfinity_apply (v : Bool) (s : EcPoint B) :
    EcPoint.setInfinity v s = .ok () ⟨s.x, s.y, v⟩ := rfl

@[simp] theorem EcPointProj.onX_apply (act : BnM B α) (s : EcPointProj B) :
    EcPointProj.onX act s = fold (act s.x) (fun a t => .ok a ⟨t, s.y, s.z⟩)
      (fun e t => .error e ⟨t, s.y, s.z⟩) := rfl

@[simp] theorem EcPointProj.onY_apply (act : BnM B α) (s : EcPointProj B) :
    EcPointProj.onY act s = fold (act s.y) (fun a t => .ok a ⟨s.x, t, s.z⟩)
      (fun e t => .error e ⟨s.x, t, s.z⟩) := rfl

@[simp] theorem EcPointProj.onZ_apply (act : BnM B α) (s : EcPointProj B) :
    EcPointProj.onZ act s = fold (act s.z) (fun a t => .ok a ⟨s.x, s.y, t⟩)
      (fun e t => .error e ⟨s.x, s.y, t⟩) := rfl

end OnField

variable [BnOps B] [BnOps B'] (h : BnHom B B') {σ τ : Type}

omit [BnOps B] [BnOps B'] in
@[simp] theorem EcCurve.map_bitsDbl (f : B → B') (curve : EcCurve B) :
    (curve.map f).bitsDbl = curve.bitsDbl := rfl

@[simp] theorem isAtInfinity_hom (pt : EcPointProj B) :
    (pt.map h).isAtInfinity = pt.isAtInfinity := bnIsZero_hom h pt.z

@[simp] theorem EcPoint.uninit_hom (J : Junk) :
    (EcPoint.uninit (h.junk J) : EcPoint B') = (EcPoint.uninit J).map h := by
  simp [EcPoint.uninit]

@[simp] theorem EcPointProj.uninit_hom (J : Junk) :
    (EcPointProj.uninit (h.junk J) : EcPointProj B') = (EcPointProj.uninit J).map h := by
  simp [EcPointProj.uninit]

@[simp] theorem newBn_apply (J : Junk) (bits : Nat) (s : σ) :
    (newBn J bits : EStateM Err σ B) s =
      fold (bnInit bits (uninit J)) (fun _ t => .ok t s) (fun e _ => .error e s) := rfl

/-! ## Initialisation and assignment -/

@[simp] theorem ecPointInit_hom (bits : Nat) (s : EcPoint B) :
    ecPointInit bits (s.map h) = mapRes (EcPoint.map h) id (ecPointInit bits s) := by
  simp [ecPointInit]

@[simp] theorem ecPointProjInit_hom (bits : Nat) (s : EcPointProj B) :
    ecPointProjInit bits (s.map h) = mapRes (EcPointProj.map h) id (ecPointProjInit bits s) := by
  simp [ecPointProjInit]

@[simp] theorem ecPointAssign_hom (src s : EcPoint B) :
    ecPointAssign (src.map h) (s.map h) = mapRes (EcPoint.map h) id (ecPointAssign src s) := by
  simp [ecPointAssign]

@[simp] theorem ecPointProjAssign_hom (src s : EcPointProj B) :
    ecPointProjAssign (src.map h) (s.map h) =
      mapRes (EcPointProj.map h) id (ecPointProjAssign src s) := by
  simp [ecPointProjAssign]

/-! ## Projective coordinates -/

@[simp] theorem ecPointProjImportAffine_hom (b : EcPoint B) (s : EcPointProj B) :
    ecPointProjImportAffine (b.map h) (s.map h) =
      mapRes (EcPointProj.map h) id (ecPointProjImportAffine b s) := by
  cases hb : b.infinity <;> simp [ecPointProjImportAffine, hb]

@[simp] theorem ecPointProjNorm_hom (J : Junk) (curve : EcCurve B) (s : EcPointProj B) :
    ecPointProjNorm (h.junk J) (curve.map h) (s.map h) =
      mapRes (EcPointProj.map h) id (ecPointProjNorm J curve s) := by
  simp [ecPointProjNorm]

@[simp] theorem ecPointProjExportAffine_hom (J : Junk) (curve : EcCurve B) (a : EcPointProj B)
    (s : EcPoint B) : ecPointProjExportAffine (h.junk J) (curve.map h) (a.map h) (s.map h) =
      mapRes (EcPoint.map h) id (ecPointProjExportAffine J curve a s) := by
  simp [ecPointProjExportAffine]

theorem projSlope_hom (J : Junk) (curve : EcCurve B) (a : EcPointProj B) (tmA tmB : B)
    (s : EcPointProj B) : projSlope (h.junk J) (curve.map h) (a.map h) (h tmA) (h tmB) (s.map h) =
      mapRes (EcPointProj.map h) (Prod.map h h) (projSlope J curve a tmA tmB s) := by
  simp [projSlope, bnModExpDigit_hom h _ _ (.val _)]

@[simp] theorem projHalve_hom (curve : EcCurve B) (s : B) :
    projHalve (curve.map h) (h s) = mapRes h id (projHalve curve s) := by
  simp [projHalve]

@[simp] theorem projDouble_hom (J : Junk) (curve : EcCurve B) (s : EcPointProj B) :
    projDouble (h.junk J) (curve.map h) (s.map h) =
      mapRes (EcPointProj.map h) id (projDouble J curve s) := by
  simp [projDouble, projSlope_hom]

@[simp] theorem projSum_hom (J : Junk) (curve : EcCurve B) (b : EcPointProj B)
    (tmA tmB tmC tmD : B) (s : EcPointProj B) :
    projSum (h.junk J) (curve.map h) (b.map h) (h tmA) (h tmB) (h tmC) (h tmD) (s.map h) =
      mapRes (EcPointProj.map h) id (projSum J curve b tmA tmB tmC tmD s) := by
  simp [projSum]

@[simp] theorem projAddOther_hom (J : Junk) (curve : EcCurve B) (b s : EcPointProj B) :
    projAddOther (h.junk J) (curve.map h) (b.map h) (s.map h) =
      mapRes (EcPointProj.map h) id (projAddOther J curve b s) := by
  simp [projAddOther]

theorem ecPointProjAdd_hom (J : Junk) (curve : EcCurve B) (b : Arg (EcPointProj B))
    (s : EcPointProj B) :
    ecPointProjAdd (h.junk J) (curve.map h) (b.map (EcPointProj.map h)) (s.map h) =
      mapRes (EcPointProj.map h) id (ecPointProjAdd J curve b s) := by
  cases b <;> simp [ecPointProjAdd]

theorem ecPointProjSub_hom (J : Junk) (curve : EcCurve B) (b s : EcPointProj B) :
    ecPointProjSub (h.junk J) (curve.map h) (b.map h) (s.map h) =
      mapRes (EcPointProj.map h) id (ecPointProjSub J curve b s) := by
  have hadd : ∀ x y z, ecPointProjAdd (h.junk (J 2)) (curve.map h) (.val ⟨h x, h y, h z⟩)
      (s.map h) = mapRes (EcPointProj.map h) id (ecPointProjAdd (J 2) curve (.val ⟨x, y, z⟩) s) :=
    fun x y z => ecPointProjAdd_hom h (J 2) curve (.val ⟨x, y, z⟩) s
  simp [ecPointProjSub, hadd]

/-! ## Affine coordinates -/

@[simp] theorem affineFinish_hom (J : Junk) (curve : EcCurve B) (bx lambda tm : B)
    (s : EcPoint B) :
    affineFinish (h.junk J) (curve.map h) (h bx) (h lambda) (h tm) (s.map h) =
      mapRes (EcPoint.map h) id (affineFinish J curve bx lambda tm s) := by
  simp [affineFinish]

@[simp] theorem affineDouble_hom (J : Junk) (curve : EcCurve B) (bx : B) (s : EcPoint B) :
    affineDouble (h.junk J) (curve.map h) (h bx) (s.map h) =
      mapRes (EcPoint.map h) id (affineDouble J curve bx s) := by
  cases hM : curve.aM3 <;> simp [affineDouble, hM]

@[simp] theorem affineAddOther_hom (J : Junk) (curve : EcCurve B) (b s : EcPoint B) :
    affineAddOther (h.junk J) (curve.map h) (b.map h) (s.map h) =
      mapRes (EcPoint.map h) id (affineAddOther J curve b s) := by
  simp [affineAddOther]

theorem ecPointAffineAdd_hom (J : Junk) (curve : EcCurve B) (b : Arg (EcPoint B))
    (s : EcPoint B) :
    ecPointAffineAdd (h.junk J) (curve.map h) (b.map (EcPoint.map h)) (s.map h) =
      mapRes (EcPoint.map h) id (ecPointAffineAdd J curve b s) := by
  cases b with
  | self => cases hs : s.infinity <;> simp [ecPointAffineAdd, hs]
  | val b => cases hb : b.infinity <;> cases hs : s.infinity <;> simp [ecPointAffineAdd, hb, hs]

theorem ecPointAffineSub_hom (J : Junk) (curve : EcCurve B) (b s : EcPoint B) :
    ecPointAffineSub (h.junk J) (curve.map h) (b.map h) (s.map h) =
      mapRes (EcPoint.map h) id (ecPointAffineSub J curve b s) := by
  have hadd : ∀ x y i, ecPointAffineAdd (h.junk (J 2)) (curve.map h) (.val ⟨h x, h y, i⟩)
      (s.map h) = mapRes (EcPoint.map h) id (ecPointAffineAdd (J 2) curve (.val ⟨x, y, i⟩) s) :=
    fun x y i => ecPointAffineAdd_hom h (J 2) curve (.val ⟨x, y, i⟩) s
  simp [ecPointAffineSub, hadd]

end Curve
