import Liblcb.BigNum.Mod

/-!
# Points

The point types of `math/elliptic_curve.h` and their arithmetic, in affine and in projective
(Jacobian) coordinates.  The build is the header's default one: `EC_PROJ_ADD_MIX` and
`EC_PROJ_REPEAT_DOUBLE` are not defined.  A function that writes through a point pointer is an
action on that point; an operand that may be the same object is an `Arg`.
-/

namespace Curve

open BigNum StateErr BnOps

variable {B : Type} [BnOps B]

/-- `ec_point_t`. -/
structure EcPoint (B : Type) where
  x : B
  y : B
  infinity : Bool

/-- `ec_point_proj_t`. -/
structure EcPointProj (B : Type) where
  x : B
  y : B
  z : B

/-- The values of `curve->algo` the switches know, and any other one. -/
inductive CurveAlgo where
  | ecdsa
  | gost20xx
  | other
  deriving DecidableEq, Repr

/-- `ec_curve_t` without the multiplication table of `G`; `t` is only read by
`ec_curve_validate`. -/
structure EcCurve (B : Type) where
  m : Nat
  p : B
  a : B
  b : B
  G : EcPoint B
  n : B
  h : BitVec 32
  algo : CurveAlgo
  /-- `EC_CURVE_FLAG_A_M3 & flags` -/
  aM3 : Bool

/-- `EC_CURVE_CALC_BITS_DBL`: double size and one digit. -/
def EcCurve.bitsDbl (curve : EcCurve B) : Nat := 64 + 2 * curve.m

def EcCurve.bytes (curve : EcCurve B) : Nat := (curve.m + 7) / 8

/-- A local `bn_t` that `bn_init` has been called on. -/
def newBn {σ : Type} (J : Junk) (bits : Nat) : EStateM Err σ B := exec (uninit J) (bnInit bits)

namespace EcPoint

def uninit (J : Junk) : EcPoint B := ⟨BnOps.uninit (J 0), BnOps.uninit (J 1), false⟩

def onX {α : Type} (act : BnM B α) : EStateM Err (EcPoint B) α :=
  zoom EcPoint.x (fun x pt => { pt with x := x }) act

def onY {α : Type} (act : BnM B α) : EStateM Err (EcPoint B) α :=
  zoom EcPoint.y (fun y pt => { pt with y := y }) act

def setInfinity (v : Bool) : EStateM Err (EcPoint B) Unit :=
  modify fun pt => { pt with infinity := v }

end EcPoint

namespace EcPointProj

def uninit (J : Junk) : EcPointProj B := ⟨BnOps.uninit (J 0), BnOps.uninit (J 1), BnOps.uninit (J 2)⟩

def onX {α : Type} (act : BnM B α) : EStateM Err (EcPointProj B) α :=
  zoom EcPointProj.x (fun x pt => { pt with x := x }) act

def onY {α : Type} (act : BnM B α) : EStateM Err (EcPointProj B) α :=
  zoom EcPointProj.y (fun y pt => { pt with y := y }) act

def onZ {α : Type} (act : BnM B α) : EStateM Err (EcPointProj B) α :=
  zoom EcPointProj.z (fun z pt => { pt with z := z }) act

def isAtInfinity (pt : EcPointProj B) : Bool := bnIsZero pt.z

end EcPointProj

/-! ## Initialisation and assignment -/

def ecPointInit (bits : Nat) : EStateM Err (EcPoint B) Unit := do
  EcPoint.onX (bnInit bits)
  EcPoint.onY (bnInit bits)
  EcPoint.setInfinity false

theorem one_ne : (1 : Digit) ≠ 0 := by decide

def ecPointProjInit (bits : Nat) : EStateM Err (EcPointProj B) Unit := do
  EcPointProj.onX (bnInit bits)
  EcPointProj.onY (bnInit bits)
  EcPointProj.onZ (bnInit bits)
  EcPointProj.onZ (bnAssignDigit 1 one_ne)

/-- `ec_point_assign` from another object. -/
def ecPointAssign (src : EcPoint B) : EStateM Err (EcPoint B) Unit := do
  EcPoint.onX (bnAssign (.val src.x))
  EcPoint.onY (bnAssign (.val src.y))
  EcPoint.setInfinity src.infinity

/-- `ec_point_proj_assign` from another object. -/
def ecPointProjAssign (src : EcPointProj B) : EStateM Err (EcPointProj B) Unit := do
  EcPointProj.onX (bnAssign (.val src.x))
  EcPointProj.onY (bnAssign (.val src.y))
  EcPointProj.onZ (bnAssign (.val src.z))

/-! ## Projective coordinates -/

def ecPointProjImportAffine (b : EcPoint B) : EStateM Err (EcPointProj B) Unit :=
  if b.infinity then do
    EcPointProj.onX bnAssignZero
    EcPointProj.onY bnAssignZero
    EcPointProj.onZ bnAssignZero
  else do
    EcPointProj.onX (bnAssign (.val b.x))
    EcPointProj.onY (bnAssign (.val b.y))
    EcPointProj.onZ (bnAssignDigit 1 one_ne)

def ecPointProjNorm (J : Junk) (curve : EcCurve B) : EStateM Err (EcPointProj B) Unit := do
  let point ← get
  if point.isAtInfinity then pure ()
  else if bnIsOne point.z then pure ()
  else do
    let p : Arg B := .val curve.p
    let zInv ← newBn (J 0) curve.bitsDbl
    let zInv2 ← newBn (J 1) curve.bitsDbl
    let tm ← newBn (J 2) curve.bitsDbl
    let zInv ← exec zInv (bnAssign (.val point.z))
    let zInv ← exec zInv (bnModInv (J 3) p)
    let zInv2 ← exec zInv2 (bnAssign (.val zInv))
    let zInv2 ← exec zInv2 (bnModSquare (J 4) p)
    let tm ← exec tm (bnAssign (.val point.x))
    let tm ← exec tm (bnModMult (J 5) (.val zInv2) p)
    EcPointProj.onX (bnAssign (.val tm))
    let tm ← exec tm (bnAssign (.val point.y))
    let tm ← exec tm (bnModMult (J 6) (.val zInv2) p)
    let tm ← exec tm (bnModMult (J 7) (.val zInv) p)
    EcPointProj.onY (bnAssign (.val tm))
    EcPointProj.onZ (bnAssignDigit 1 one_ne)

/-- `ec_point_proj_export_affine`: the projective point is normalised on the way. -/
def ecPointProjExportAffine (J : Junk) (curve : EcCurve B) (a : EcPointProj B) :
    EStateM Err (EcPoint B) Unit :=
  if a.isAtInfinity then EcPoint.setInfinity true
  else do
    let a ← exec a (ecPointProjNorm J curve)
    EcPoint.onX (bnAssign (.val a.x))
    EcPoint.onY (bnAssign (.val a.y))
    EcPoint.setInfinity false

/-- The slope of `ec_point_proj_add` at a point: `3 * X ^ 2 + a * Z ^ 4`, with the shortcut for
`a = -3`. -/
def projSlope (J : Junk) (curve : EcCurve B) (a : EcPointProj B) (tmA tmB : B) :
    EStateM Err (EcPointProj B) (B × B) := do
  let p : Arg B := .val curve.p
  if curve.aM3 then do
    let tmA ← exec tmA (bnAssign (.val a.z))
    let tmA ← exec tmA (bnModSquare (J 0) p)
    let tmB ← exec tmB (bnAssign (.val a.x))
    let tmB ← exec tmB (bnModSub (J 1) (.val tmA) p)
    let tmA ← exec tmA (bnModAdd (.val a.x) p)
    let tmB ← exec tmB (bnModMult (J 2) (.val tmA) p)
    let tmB ← exec tmB (bnModMultDigit (J 3) 3 p)
    pure (tmA, tmB)
  else do
    let tmB ← exec tmB (bnAssign (.val a.x))
    let tmB ← exec tmB (bnModSquare (J 0) p)
    let tmB ← exec tmB (bnModMultDigit (J 1) 3 p)
    if bnIsZero curve.a then pure (tmA, tmB)
    else do
      let tmA ← exec tmA (bnAssign (.val a.z))
      let tmA ← exec tmA (bnModExpDigit (J 2) 4 p)
      let tmA ← exec tmA (bnModMult (J 3) (.val curve.a) p)
      let tmB ← exec tmB (bnModAdd (.val tmA) p)
      pure (tmA, tmB)

/-- `y2 = y2 / 2 mod p` in `ec_point_proj_add`. -/
def projHalve (curve : EcCurve B) : BnM B Unit := do
  let y2 ← get
  onlyIf (bnIsOdd y2 = true) do
    let _ ← bnAdd (.val curve.p)
    pure ()
  bnRShift 1

/-- The label `point_double` of `ec_point_proj_add`. -/
def projDouble (J : Junk) (curve : EcCurve B) : EStateM Err (EcPointProj B) Unit := do
  let a ← get
  if bnIsZero a.y then EcPointProj.onZ bnAssignZero
  else do
    let p : Arg B := .val curve.p
    let tmA ← newBn (J 0) curve.bitsDbl
    let tmB ← newBn (J 1) curve.bitsDbl
    let tmC ← newBn (J 2) curve.bitsDbl
    let y2 ← newBn (J 3) curve.bitsDbl
    let slope ← projSlope (J 4) curve a tmA tmB
    let tmB := slope.2
    -- Zres
    let y2 ← exec y2 (bnAssign (.val a.y))
    let y2 ← exec y2 (bnModMultDigit (J 5) 2 p)
    let tmA ← exec slope.1 (bnAssign (.val a.z))
    let tmA ← exec tmA (bnModMult (J 6) (.val y2) p)
    EcPointProj.onZ (bnAssign (.val tmA))
    -- Xres
    let y2 ← exec y2 (bnModSquare (J 7) p)
    let tmC ← exec tmC (bnAssign (.val a.x))
    let tmC ← exec tmC (bnModMult (J 8) (.val y2) p)
    let y2 ← exec y2 (bnModSquare (J 9) p)
    let y2 ← exec y2 (projHalve curve)
    let tmA ← exec tmA (bnAssign (.val tmB))
    let tmA ← exec tmA (bnModSquare (J 10) p)
    let tmA ← exec tmA (bnModSub (J 11) (.val tmC) p)
    let tmA ← exec tmA (bnModSub (J 12) (.val tmC) p)
    EcPointProj.onX (bnAssign (.val tmA))
    -- Yres
    let a ← get
    let tmC ← exec tmC (bnModSub (J 13) (.val a.x) p)
    let tmC ← exec tmC (bnModMult (J 14) (.val tmB) p)
    let tmC ← exec tmC (bnModSub (J 15) (.val y2) p)
    EcPointProj.onY (bnAssign (.val tmC))

/-- The sum of two different points in `ec_point_proj_add`, from the cross products on. -/
def projSum (J : Junk) (curve : EcCurve B) (b : EcPointProj B) (tmA tmB tmC tmD : B) :
    EStateM Err (EcPointProj B) Unit := do
  let p : Arg B := .val curve.p
  let res ← newBn (J 0) curve.bitsDbl
  let tmE ← newBn (J 1) curve.bitsDbl
  let tmF ← newBn (J 2) curve.bitsDbl
  let tm ← newBn (J 3) curve.bitsDbl
  let tmE ← exec tmE (bnAssign (.val tmC))
  let tmE ← exec tmE (bnModSub (J 4) (.val tmA) p)
  let tmF ← exec tmF (bnAssign (.val tmD))
  let tmF ← exec tmF (bnModSub (J 5) (.val tmB) p)
  let tmC ← exec tmC (bnAssign (.val tmE))
  let tmC ← exec tmC (bnModSquare (J 6) p)
  let tmD ← exec tmD (bnAssign (.val tmC))
  let tmC ← exec tmC (bnModMult (J 7) (.val tmA) p)
  let tmD ← exec tmD (bnModMult (J 8) (.val tmE) p)
  -- Xres = F^2 - D - 2 * C
  let res ← exec res (bnAssign (.val tmF))
  let res ← exec res (bnModSquare (J 9) p)
  let res ← exec res (bnModSub (J 10) (.val tmD) p)
  let tm ← exec tm (bnAssign (.val tmC))
  let tm ← exec tm (bnModMultDigit (J 11) 2 p)
  let res ← exec res (bnModSub (J 12) (.val tm) p)
  EcPointProj.onX (bnAssign (.val res))
  -- Yres = F * (C - Xres) - B * D
  let a ← get
  let res ← exec res (bnAssign (.val tmC))
  let res ← exec res (bnModSub (J 13) (.val a.x) p)
  let res ← exec res (bnModMult (J 14) (.val tmF) p)
  let tm ← exec tm (bnAssign (.val tmD))
  let tm ← exec tm (bnModMult (J 15) (.val tmB) p)
  let res ← exec res (bnModSub (J 16) (.val tm) p)
  EcPointProj.onY (bnAssign (.val res))
  -- Zres = Z1 * Z2 * E
  let res ← exec res (bnAssign (.val tmE))
  let res ← exec res (bnModMult (J 17) (.val a.z) p)
  let res ← exec res (bnModMult (J 18) (.val b.z) p)
  EcPointProj.onZ (bnAssign (.val res))

/-- The branch `a != b` of `ec_point_proj_add`. -/
def projAddOther (J : Junk) (curve : EcCurve B) (b : EcPointProj B) :
    EStateM Err (EcPointProj B) Unit := do
  let a ← get
  let p : Arg B := .val curve.p
  let tmA ← newBn (J 0) curve.bitsDbl
  let tmB ← newBn (J 1) curve.bitsDbl
  let tmC ← newBn (J 2) curve.bitsDbl
  let tmD ← newBn (J 3) curve.bitsDbl
  -- A = X1 * Z2^2, B = Y1 * Z2^3
  let tmA ← exec tmA (bnAssign (.val b.z))
  let tmA ← exec tmA (bnModSquare (J 4) p)
  let tmB ← exec tmB (bnAssign (.val tmA))
  let tmA ← exec tmA (bnModMult (J 5) (.val a.x) p)
  let tmB ← exec tmB (bnModMult (J 6) (.val b.z) p)
  let tmB ← exec tmB (bnModMult (J 7) (.val a.y) p)
  -- C = X2 * Z1^2, D = Y2 * Z1^3
  let tmC ← exec tmC (bnAssign (.val a.z))
  let tmC ← exec tmC (bnModSquare (J 8) p)
  let tmD ← exec tmD (bnAssign (.val tmC))
  let tmC ← exec tmC (bnModMult (J 9) (.val b.x) p)
  let tmD ← exec tmD (bnModMult (J 10) (.val a.z) p)
  let tmD ← exec tmD (bnModMult (J 11) (.val b.y) p)
  if bnCmp tmA tmC = .eq then
    if bnCmp tmB tmD = .eq then projDouble (J 12) curve
    else EcPointProj.onZ bnAssignZero
  else projSum (J 13) curve b tmA tmB tmC tmD

def ecPointProjAdd (J : Junk) (curve : EcCurve B) (b : Arg (EcPointProj B)) :
    EStateM Err (EcPointProj B) Unit :=
  match b with
  | .self => do
    let a ← get
    if a.isAtInfinity then pure () else projDouble J curve
  | .val b => do
    let a ← get
    if b.isAtInfinity then pure ()
    else if a.isAtInfinity then ecPointProjAssign b
    else projAddOther J curve b

def ecPointProjSub (J : Junk) (curve : EcCurve B) (b : EcPointProj B) :
    EStateM Err (EcPointProj B) Unit := do
  let tm ← exec (EcPointProj.uninit (J 0)) (ecPointProjInit curve.bitsDbl)
  let tm ← exec tm (EcPointProj.onX (bnAssign (.val b.x)))
  let tm ← exec tm (EcPointProj.onY (bnAssign (.val curve.p)))
  let tm ← exec tm (EcPointProj.onY (bnModSub (J 1) (.val b.y) (.val curve.p)))
  let tm ← exec tm (EcPointProj.onZ (bnAssign (.val b.z)))
  ecPointProjAdd (J 2) curve (.val tm)

/-! ## Affine coordinates -/

/-- The end of `ec_point_affine_add`: the slope is `lambda / tm`, `bx` is `b->x`. -/
def affineFinish (J : Junk) (curve : EcCurve B) (bx lambda tm : B) :
    EStateM Err (EcPoint B) Unit := do
  let a ← get
  let p : Arg B := .val curve.p
  let tm ← exec tm (bnModInv (J 0) p)
  let lambda ← exec lambda (bnModMult (J 1) (.val tm) p)
  -- res_x = lambda^2 - ax - bx
  let tm ← exec tm (bnAssign (.val lambda))
  let tm ← exec tm (bnModSquare (J 2) p)
  let tm ← exec tm (bnModSub (J 3) (.val a.x) p)
  let tm ← exec tm (bnModSub (J 4) (.val bx) p)
  -- res_y = lambda * (ax - res_x) - ay
  EcPoint.onX (bnModSub (J 5) (.val tm) p)
  let a ← get
  let lambda ← exec lambda (bnModMult (J 6) (.val a.x) p)
  let lambda ← exec lambda (bnModSub (J 7) (.val a.y) p)
  EcPoint.onX (bnAssign (.val tm))
  EcPoint.onY (bnAssign (.val lambda))
  EcPoint.setInfinity false

/-- The label `point_double` of `ec_point_affine_add`. -/
def affineDouble (J : Junk) (curve : EcCurve B) (bx : B) : EStateM Err (EcPoint B) Unit := do
  let a ← get
  let p : Arg B := .val curve.p
  if bnIsZero a.y then EcPoint.setInfinity true
  else do
    let lambda ← newBn (J 0) curve.bitsDbl
    let tm ← newBn (J 1) curve.bitsDbl
    let lambda ← exec lambda (bnAssign (.val a.x))
    let lambda ← exec lambda (bnModSquare (J 2) p)
    let lambda ← exec lambda (bnModMultDigit (J 3) 3 p)
    let tm ← exec tm (if curve.aM3 then bnAssignDigit 3 (by decide) else pure ())
    let lambda ← exec lambda (if curve.aM3 then bnModSub (J 4) (.val tm) p
      else bnModAdd (.val curve.a) p)
    let tm ← exec tm (bnAssign (.val a.y))
    let tm ← exec tm (bnModMultDigit (J 5) 2 p)
    affineFinish (J 6) curve bx lambda tm

/-- The branch `a != b` of `ec_point_affine_add`. -/
def affineAddOther (J : Junk) (curve : EcCurve B) (b : EcPoint B) :
    EStateM Err (EcPoint B) Unit := do
  let a ← get
  let p : Arg B := .val curve.p
  let tm ← newBn (J 0) curve.bitsDbl
  let tm ← exec tm (bnAssign (.val b.x))
  let tm ← exec tm (bnModSub (J 1) (.val a.x) p)
  if bnIsZero tm then
    if bnCmp a.y b.y = .eq then affineDouble (J 2) curve b.x
    else EcPoint.setInfinity true
  else do
    let lambda ← newBn (J 3) curve.bitsDbl
    let lambda ← exec lambda (bnAssign (.val b.y))
    let lambda ← exec lambda (bnModSub (J 4) (.val a.y) p)
    affineFinish (J 5) curve b.x lambda tm

def ecPointAffineAdd (J : Junk) (curve : EcCurve B) (b : Arg (EcPoint B)) :
    EStateM Err (EcPoint B) Unit :=
  match b with
  | .self => do
    let a ← get
    if a.infinity then pure () else affineDouble J curve a.x
  | .val b => do
    let a ← get
    if b.infinity then pure ()
    else if a.infinity then ecPointAssign b
    else affineAddOther J curve b

def ecPointAffineSub (J : Junk) (curve : EcCurve B) (b : EcPoint B) :
    EStateM Err (EcPoint B) Unit := do
  let tm ← exec (EcPoint.uninit (J 0)) (ecPointInit curve.bitsDbl)
  let tm ← exec tm (EcPoint.onX (bnAssign (.val b.x)))
  let tm ← exec tm (EcPoint.onY (bnAssign (.val curve.p)))
  let tm ← exec tm (EcPoint.onY (bnModSub (J 1) (.val b.y) (.val curve.p)))
  let tm ← exec tm (EcPoint.setInfinity b.infinity)
  ecPointAffineAdd (J 2) curve (.val tm)

end Curve
