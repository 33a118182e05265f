import Liblcb.Curve.PointHom

/-!
# Mixed addition and repeated doubling

The functions of `math/elliptic_curve.h` whose body depends on the build: `ec_point_proj_add_mix`
has a body of its own under `EC_PROJ_ADD_MIX`, and `ec_point_proj_dbl_n` under
`EC_PROJ_REPEAT_DOUBLE`.  With them `ec_point_is_eq` and the affine doublings.
-/

namespace Curve

open BigNum StateErr BnOps

variable {B : Type} [BnOps B]

/-- The macros that choose a body. -/
structure Build where
  addMix : Bool
  repeatDouble : Bool

/-- `ec_point_is_eq` of two objects. -/
def ecPointIsEq (a b : EcPoint B) : Bool :=
  if a.infinity && b.infinity then true
  else if !a.infinity && !b.infinity && bnCmp a.x b.x = .eq && bnCmp a.y b.y = .eq then true
  else false

def ecPointAffineDblN (J : Junk) (curve : EcCurve B) : Nat → EStateM Err (EcPoint B) Unit
  | 0 => pure ()
  | n + 1 => do
    ecPointAffineAdd (J n) curve .self
    ecPointAffineDblN J curve n

/-! ## Mixed addition -/

/-- `ec_point_proj_add_mix` under `EC_PROJ_ADD_MIX`, from the differences `tm1` of the `x` and `tm2`
of the `y` on, which are not both zero. -/
def mixSum (J : Junk) (curve : EcCurve B) (tm tm1 tm2 tm3 tm4 : B) :
    EStateM Err (EcPointProj B) Unit := do
  let a ← get
  let p : Arg B := .val curve.p
  let tm3 ← exec tm3 (bnAssign (.val tm1))
  let tm3 ← exec tm3 (bnModSquare (J 0) p)
  let tm4 ← exec tm4 (bnAssign (.val tm3))
  let tm4 ← exec tm4 (bnModMult (J 1) (.val tm1) p)
  let tm3 ← exec tm3 (bnModMult (J 2) (.val a.x) p)
  let tm1 ← exec tm1 (bnModMult (J 3) (.val a.z) p)
  EcPointProj.onZ (bnAssign (.val tm1))
  let tm1 ← exec tm1 (bnAssign (.val tm3))
  let tm1 ← exec tm1 (bnModMultDigit (J 4) 2 p)
  let tm ← exec tm (bnAssign (.val tm2))
  let tm ← exec tm (bnModSquare (J 5) p)
  let tm ← exec tm (bnModSub (J 6) (.val tm1) p)
  let tm ← exec tm (bnModSub (J 7) (.val tm4) p)
  EcPointProj.onX (bnAssign (.val tm))
  let a ← get
  let tm3 ← exec tm3 (bnModSub (J 8) (.val a.x) p)
  let tm3 ← exec tm3 (bnModMult (J 9) (.val tm2) p)
  let tm4 ← exec tm4 (bnModMult (J 10) (.val a.y) p)
  let tm3 ← exec tm3 (bnModSub (J 11) (.val tm4) p)
  EcPointProj.onY (bnAssign (.val tm3))

/-- `ec_point_proj_add_mix` under `EC_PROJ_ADD_MIX`, both points finite. -/
def mixAddOther (J : Junk) (curve : EcCurve B) (b : EcPoint B) :
    EStateM Err (EcPointProj B) Unit := do
  let a ← get
  let p : Arg B := .val curve.p
  let tm ← newBn (J 0) curve.bitsDbl
  let tm1 ← newBn (J 1) curve.bitsDbl
  let tm2 ← newBn (J 2) curve.bitsDbl
  let tm3 ← newBn (J 3) curve.bitsDbl
  let tm4 ← newBn (J 4) curve.bitsDbl
  let tm1 ← exec tm1 (bnAssign (.val a.z))
  let tm1 ← exec tm1 (bnModSquare (J 5) p)
  let tm2 ← exec tm2 (bnAssign (.val tm1))
  let tm2 ← exec tm2 (bnModMult (J 6) (.val a.z) p)
  let tm1 ← exec tm1 (bnModMult (J 7) (.val b.x) p)
  let tm2 ← exec tm2 (bnModMult (J 8) (.val b.y) p)
  let tm1 ← exec tm1 (bnModSub (J 9) (.val a.x) p)
  let tm2 ← exec tm2 (bnModSub (J 10) (.val a.y) p)
  if bnIsZero tm1 then
    if bnIsZero tm2 then ecPointProjAdd (J 11) curve .self
    else EcPointProj.onZ bnAssignZero
  else mixSum (J 12) curve tm tm1 tm2 tm3 tm4

def ecPointProjAddMix (build : Build) (J : Junk) (curve : EcCurve B) (b : EcPoint B) :
    EStateM Err (EcPointProj B) Unit :=
  if build.addMix then
    if b.infinity then pure ()
    else do
      let a ← get
      if a.isAtInfinity then ecPointProjImportAffine b else mixAddOther J curve b
  else do
    -- `tm` has the bits of the curve only
    let tm ← exec (EcPointProj.uninit (J 0)) (ecPointProjInit curve.m)
    let tm ← exec tm (ecPointProjImportAffine b)
    ecPointProjAdd (J 1) curve (.val tm)

def ecPointProjSubMix (build : Build) (J : Junk) (curve : EcCurve B) (b : EcPoint B) :
    EStateM Err (EcPointProj B) Unit := do
  let tm ← exec (EcPoint.uninit (J 0)) (ecPointInit curve.bitsDbl)
  let tm ← exec tm (EcPoint.onX (bnAssign (.val b.x)))
  let tm ← exec tm (EcPoint.onY (bnAssign (.val curve.p)))
  let tm ← exec tm (EcPoint.onY (bnModSub (J 1) (.val b.y) (.val curve.p)))
  let tm ← exec tm (EcPoint.setInfinity b.infinity)
  ecPointProjAddMix build (J 2) curve tm

/-! ## Repeated doubling -/

/-- The locals of `ec_point_proj_dbl_n`: `Y` is twice the `y` of the point, `tmC` is `Z ^ 4`. -/
structure DblLocals (B : Type) where
  Y : B
  y2 : B
  tm : B
  tmA : B
  tmB : B
  tmC : B

/-- The slope `tmA = 3 * X ^ 2 + a * tmC`, with `tm` for the product; the pair is `tm` and `tmA`. -/
def dblSlope (J : Junk) (curve : EcCurve B) (x : B) (l : DblLocals B) :
    EStateM Err (EcPointProj B) (B × B) := do
  let p : Arg B := .val curve.p
  if curve.aM3 then do
    let tmA ← exec l.tmA (bnAssign (.val x))
    let tmA ← exec tmA (bnModSquare (J 0) p)
    let tmA ← exec tmA (bnModSub (J 1) (.val l.tmC) p)
    let tmA ← exec tmA (bnModMultDigit (J 2) 3 p)
    pure (l.tm, tmA)
  else do
    let tmA ← exec l.tmA (bnAssign (.val x))
    let tmA ← exec tmA (bnModSquare (J 0) p)
    let tmA ← exec tmA (bnModMultDigit (J 1) 3 p)
    if bnIsZero curve.a then pure (l.tm, tmA)
    else do
      let tm ← exec l.tm (bnAssign (.val curve.a))
      let tm ← exec tm (bnModMult (J 2) (.val l.tmC) p)
      let tmA ← exec tmA (bnModAdd (.val tm) p)
      pure (tm, tmA)

/-- One round of the loop; `tmC` is not carried on in the last one. -/
def dblRound (J : Junk) (curve : EcCurve B) (last : Bool) (l : DblLocals B) :
    EStateM Err (EcPointProj B) (DblLocals B) := do
  let point ← get
  let p : Arg B := .val curve.p
  let slope ← dblSlope (J 0) curve point.x l
  let tmA := slope.2
  -- tmB = X * Y^2
  let y2 ← exec l.y2 (bnAssign (.val l.Y))
  let y2 ← exec y2 (bnModSquare (J 1) p)
  let tmB ← exec l.tmB (bnAssign (.val point.x))
  let tmB ← exec tmB (bnModMult (J 2) (.val y2) p)
  -- X = tmA^2 - 2 * tmB
  let tm ← exec slope.1 (bnAssign (.val tmA))
  let tm ← exec tm (bnModSquare (J 3) p)
  let tm ← exec tm (bnModSub (J 4) (.val tmB) p)
  let tm ← exec tm (bnModSub (J 5) (.val tmB) p)
  EcPointProj.onX (bnAssign (.val tm))
  -- Z = Z * Y
  let tm ← exec tm (bnAssign (.val l.Y))
  let tm ← exec tm (bnModMult (J 6) (.val point.z) p)
  EcPointProj.onZ (bnAssign (.val tm))
  let y2 ← exec y2 (bnModSquare (J 7) p)
  let tmC ← exec l.tmC (if last then pure () else bnModMult (J 8) (.val y2) p)
  -- Y = 2 * tmA * (tmB - X) - Y^4
  let point ← get
  let tmB ← exec tmB (bnModSub (J 9) (.val point.x) p)
  let tmA ← exec tmA (bnModMultDigit (J 10) 2 p)
  let tmA ← exec tmA (bnModMult (J 11) (.val tmB) p)
  let tmA ← exec tmA (bnModSub (J 12) (.val y2) p)
  let Y ← exec l.Y (bnAssign (.val tmA))
  pure ⟨Y, y2, tm, tmA, tmB, tmC⟩

/-- The loop with `n` rounds to go. -/
def dblLoop (J : Junk) (curve : EcCurve B) :
    Nat → DblLocals B → EStateM Err (EcPointProj B) (DblLocals B)
  | 0, l => pure l
  | n + 1, l => do
    let l ← dblRound (J n) curve (n == 0) l
    dblLoop J curve n l

/-- The size of the locals of `ec_point_proj_dbl_n` under `EC_PROJ_REPEAT_DOUBLE`. -/
def EcCurve.bitsRepeat (curve : EcCurve B) : Nat := curve.bitsDbl + 2 * 64

/-- `ec_point_proj_dbl_n` under `EC_PROJ_REPEAT_DOUBLE`. -/
def dblRepeat (J : Junk) (curve : EcCurve B) (n : Nat) : EStateM Err (EcPointProj B) Unit := do
  let point ← get
  if bnIsZero point.y then EcPointProj.onZ bnAssignZero
  else if n = 0 ∨ point.isAtInfinity = true then pure ()
  else do
    let p : Arg B := .val curve.p
    let Y ← newBn (J 0) curve.bitsRepeat
    let y2 ← newBn (J 1) curve.bitsRepeat
    let tmA ← newBn (J 2) curve.bitsRepeat
    let tmB ← newBn (J 3) curve.bitsRepeat
    let tmC ← newBn (J 4) curve.bitsRepeat
    let tm ← newBn (J 5) curve.bitsRepeat
    let Y ← exec Y (bnAssign (.val point.y))
    let Y ← exec Y (bnModMultDigit (J 6) 2 p)
    let tmC ← exec tmC (bnAssign (.val point.z))
    let tmC ← exec tmC (bnModExpDigit (J 7) 4 p)
    let l ← dblLoop (J 8) curve n ⟨Y, y2, tm, tmA, tmB, tmC⟩
    let Y ← exec l.Y (projHalve curve)
    EcPointProj.onY (bnAssign (.val Y))

/-- `ec_point_proj_dbl_n` without the macro: `n` additions of the point to itself. -/
def dblAdd (J : Junk) (curve : EcCurve B) : Nat → EStateM Err (EcPointProj B) Unit
  | 0 => pure ()
  | n + 1 => do
    ecPointProjAdd (J n) curve .self
    dblAdd J curve n

def ecPointProjDblN (build : Build) (J : Junk) (curve : EcCurve B) (n : Nat) :
    EStateM Err (EcPointProj B) Unit :=
  if build.repeatDouble then dblRepeat J curve n else dblAdd J curve n

end Curve

/-!
# The remaining point functions commute with maps of numbers

Mixed addition, repeated doubling and the detour of an affine point through projective coordinates
run on the images of numbers as they run on the numbers.
-/

namespace Curve

open BigNum StateErr BnOps

variable {B B' : Type}

/-- An action in projective coordinates on `pt`, whose result is exported to affine ones. -/
def viaProj [BnOps B] (J : Junk) (curve : EcCurve B) (act : EStateM Err (EcPointProj B) Unit)
    (pt : EcPointProj B) : EStateM Err (EcPoint B) Unit := do
  let pt ← exec pt act
  ecPointProjExportAffine J curve pt

def DblLocals.map (f : B → B') (l : DblLocals B) : DblLocals B' :=
  ⟨f l.Y, f l.y2, f l.tm, f l.tmA, f l.tmB, f l.tmC⟩

@[simp] theorem DblLocals.map_mk (f : B → B') (Y y2 tm tmA tmB tmC : B) :
    DblLocals.map f ⟨Y, y2, tm, tmA, tmB, tmC⟩ = ⟨f Y, f y2, f tm, f tmA, f tmB, f tmC⟩ := rfl

section Fields

variable (f : B → B') (l : DblLocals B)

@[simp] theorem DblLocals.map_Y : (l.map f).Y = f l.Y := rfl

@[simp] theorem DblLocals.map_y2 : (l.map f).y2 = f l.y2 := rfl

@[simp] theorem DblLocals.map_tm : (l.map f).tm = f l.tm := rfl

@[simp] theorem DblLocals.map_tmA : (l.map f).tmA = f l.tmA := rfl

@[simp] theorem DblLocals.map_tmB : (l.map f).tmB = f l.tmB := rfl

@[simp] theorem DblLocals.map_tmC : (l.map f).tmC = f l.tmC := rfl

end Fields

variable [BnOps B] [BnOps B'] (h : BnHom B B')

theorem ecPointIsEq_hom (a b : EcPoint B) :
    ecPointIsEq (a.map h) (b.map h) = ecPointIsEq a b := by
  simp [ecPointIsEq]

theorem ecPointAffineDblN_hom (J : Junk) (curve : EcCurve B) (n : Nat) (s : EcPoint B) :
    ecPointAffineDblN (h.junk J) (curve.map h) n (s.map h) =
      mapRes (EcPoint.map h) id (ecPointAffineDblN J curve n s) := by
  induction n generalizing s with
  | zero => rfl
  | succ n ih =>
    have hadd := ecPointAffineAdd_hom h (J n) curve .self
    rw [Arg.map_self] at hadd
    simp [ecPointAffineDblN, hadd, ih]

/-! ## Mixed addition -/

@[simp] theorem mixSum_hom (J : Junk) (curve : EcCurve B) (tm tm1 tm2 tm3 tm4 : B)
    (s : EcPointProj B) :
    mixSum (h.junk J) (curve.map h) (h tm) (h tm1) (h tm2) (h tm3) (h tm4) (s.map h) =
      mapRes (EcPointProj.map h) id (mixSum J curve tm tm1 tm2 tm3 tm4 s) := by
  simp [mixSum]

@[simp] theorem mixAddOther_hom (J : Junk) (curve : EcCurve B) (b : EcPoint B)
    (s : EcPointProj B) :
    mixAddOther (h.junk J) (curve.map h) (b.map h) (s.map h) =
      mapRes (EcPointProj.map h) id (mixAddOther J curve b s) := by
  have hadd := ecPointProjAdd_hom h (J 11) curve .self
  rw [Arg.map_self] at hadd
  simp [mixAddOther, hadd]

theorem ecPointProjAddMix_hom (build : Build) (J : Junk) (curve : EcCurve B) (b : EcPoint B)
    (s : EcPointProj B) :
    ecPointProjAddMix build (h.junk J) (curve.map h) (b.map h) (s.map h) =
      mapRes (EcPointProj.map h) id (ecPointProjAddMix build J curve b s) := by
  cases hm : build.addMix with
  | true => cases hb : b.infinity <;> simp [ecPointProjAddMix, hm, hb]
  | false =>
    have hadd : ∀ pt, ecPointProjAdd (h.junk (J 1)) (curve.map h) (.val (pt.map h)) (s.map h) =
        mapRes (EcPointProj.map h) id (ecPointProjAdd (J 1) curve (.val pt) s) :=
      fun pt => ecPointProjAdd_hom h (J 1) curve (.val pt) s
    simp [ecPointProjAddMix, hm, hadd]

theorem ecPointProjSubMix_hom (build : Build) (J : Junk) (curve : EcCurve B) (b : EcPoint B)
    (s : EcPointProj B) :
    ecPointProjSubMix build (h.junk J) (curve.map h) (b.map h) (s.map h) =
      mapRes (EcPointProj.map h) id (ecPointProjSubMix build J curve b s) := by
  have hadd : ∀ x y i, ecPointProjAddMix build (h.junk (J 2)) (curve.map h) ⟨h x, h y, i⟩
      (s.map h) = mapRes (EcPointProj.map h) id (ecPointProjAddMix build (J 2) curve ⟨x, y, i⟩ s) :=
    fun x y i => ecPointProjAddMix_hom h build (J 2) curve ⟨x, y, i⟩ s
  simp [ecPointProjSubMix, hadd]

/-! ## Repeated doubling -/

theorem dblSlope_hom (J : Junk) (curve : EcCurve B) (x : B) (l : DblLocals B)
    (s : EcPointProj B) : dblSlope (h.junk J) (curve.map h) (h x) (l.map h) (s.map h) =
      mapRes (EcPointProj.map h) (Prod.map h h) (dblSlope J curve x l s) := by
  simp [dblSlope]

theorem dblRound_hom (J : Junk) (curve : EcCurve B) (last : Bool) (l : DblLocals B)
    (s : EcPointProj B) : dblRound (h.junk J) (curve.map h) last (l.map h) (s.map h) =
      mapRes (EcPointProj.map h) (DblLocals.map h) (dblRound J curve last l s) := by
  cases last <;> simp [dblRound, dblSlope_hom]

theorem dblLoop_hom (J : Junk) (curve : EcCurve B) (n : Nat) (l : DblLocals B)
    (s : EcPointProj B) : dblLoop (h.junk J) (curve.map h) n (l.map h) (s.map h) =
      mapRes (EcPointProj.map h) (DblLocals.map h) (dblLoop J curve n l s) := by
  induction n generalizing l s with
  | zero => rfl
  | succ n ih => simp [dblLoop, dblRound_hom, ih]

theorem dblRepeat_hom (J : Junk) (curve : EcCurve B) (n : Nat) (s : EcPointProj B) :
    dblRepeat (h.junk J) (curve.map h) n (s.map h) =
      mapRes (EcPointProj.map h) id (dblRepeat J curve n s) := by
  have hbits : (curve.map h).bitsRepeat = curve.bitsRepeat := rfl
  have hloop : ∀ Y y2 tm tmA tmB tmC, dblLoop (h.junk (J 8)) (curve.map h) n
      ⟨h Y, h y2, h tm, h tmA, h tmB, h tmC⟩ (s.map h) =
        mapRes (EcPointProj.map h) (DblLocals.map h)
          (dblLoop (J 8) curve n ⟨Y, y2, tm, tmA, tmB, tmC⟩ s) :=
    fun Y y2 tm tmA tmB tmC => dblLoop_hom h (J 8) curve n ⟨Y, y2, tm, tmA, tmB, tmC⟩ s
  simp [dblRepeat, hbits, hloop, bnModExpDigit_hom h _ _ (.val _)]

theorem dblAdd_hom (J : Junk) (curve : EcCurve B) (n : Nat) (s : EcPointProj B) :
    dblAdd (h.junk J) (curve.map h) n (s.map h) =
      mapRes (EcPointProj.map h) id (dblAdd J curve n s) := by
  induction n generalizing s with
  | zero => rfl
  | succ n ih =>
    have hadd := ecPointProjAdd_hom h (J n) curve .self
    rw [Arg.map_self] at hadd
    simp [dblAdd, hadd, ih]

theorem ecPointProjDblN_hom (build : Build) (J : Junk) (curve : EcCurve B) (n : Nat)
    (s : EcPointProj B) : ecPointProjDblN build (h.junk J) (curve.map h) n (s.map h) =
      mapRes (EcPointProj.map h) id (ecPointProjDblN build J curve n s) := by
  cases hr : build.repeatDouble with
  | true => simpa [ecPointProjDblN, hr] using dblRepeat_hom h J curve n s
  | false => simpa [ecPointProjDblN, hr] using dblAdd_hom h J curve n s

/-! ## What the loops read of a curve -/

omit [BnOps B'] in
theorem ecPointAffineDblN_congr (curve curve' : EcCurve B)
    (hadd : ∀ J, ecPointAffineAdd J curve .self = ecPointAffineAdd J curve' .self) (J : Junk)
    (n : Nat) : ecPointAffineDblN J curve n = ecPointAffineDblN J curve' n := by
  induction n with
  | zero => rfl
  | succ n ih => rw [ecPointAffineDblN, ecPointAffineDblN, hadd, ih]

theorem dblAdd_congr (curve curve' : EcCurve B)
    (hadd : ∀ J, ecPointProjAdd J curve .self = ecPointProjAdd J curve' .self) (J : Junk)
    (n : Nat) : dblAdd J curve n = dblAdd J curve' n := by
  induction n with
  | zero => rfl
  | succ n ih => rw [dblAdd, dblAdd, hadd, ih]

theorem dblLoop_congr {curve curve' : EcCurve B}
    (hround : ∀ J last l, dblRound J curve last l = dblRound J curve' last l) (J : Junk) (n : Nat)
    (l : DblLocals B) : dblLoop J curve n l = dblLoop J curve' n l := by
  induction n generalizing l with
  | zero => rfl
  | succ n ih =>
    rw [dblLoop, dblLoop, hround]
    exact congrArg _ (funext fun l => ih l)

theorem dblRepeat_congr (curve curve' : EcCurve B) (hm : curve.m = curve'.m)
    (hp : curve.p = curve'.p) (ha : curve.a = curve'.a) (hM : curve.aM3 = curve'.aM3) (J : Junk)
    (n : Nat) : dblRepeat J curve n = dblRepeat J curve' n := by
  have hround : ∀ J last l, dblRound J curve last l = dblRound J curve' last l := by
    intro J last l
    simp only [dblRound, dblSlope, hp, ha, hM]
  simp only [dblRepeat, projHalve, EcCurve.bitsRepeat, EcCurve.bitsDbl, dblLoop_congr hround, hm,
    hp]

/-! ## Through projective coordinates -/

theorem viaProj_hom (J : Junk) (curve : EcCurve B) {act : EStateM Err (EcPointProj B) Unit}
    {act' : EStateM Err (EcPointProj B') Unit} (pt : EcPointProj B)
    (hact : act' (pt.map h) = mapRes (EcPointProj.map h) id (act pt)) (s : EcPoint B) :
    viaProj (h.junk J) (curve.map h) act' (pt.map h) (s.map h) =
      mapRes (EcPoint.map h) id (viaProj J curve act pt s) := by
  simp [viaProj, hact]

end Curve
