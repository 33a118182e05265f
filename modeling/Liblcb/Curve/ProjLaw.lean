import Liblcb.Curve.AffineLaw
import Liblcb.Curve.ProjNum

/-!
# Jacobian arithmetic refines affine arithmetic

Whatever representatives the points have, an operation in projective coordinates that is exported
to affine ones gives the point that the affine operation gives, in every build.
-/

namespace Curve

open BigNum BigNum.Bn Limbs StateErr BnOps Weierstrass

/-- A record that a point can be written to. -/
structure EcPoint.Slot (curve : EcCurve Bn) (pt : EcPoint Bn) : Prop where
  x_wf : pt.x.WF
  y_wf : pt.y.WF
  x_room : curve.p.digits ≤ pt.x.count
  y_room : curve.p.digits ≤ pt.y.count

structure EcPointProj.Slot (curve : EcCurve Bn) (pt : EcPointProj Bn) : Prop where
  x_wf : pt.x.WF
  y_wf : pt.y.WF
  z_wf : pt.z.WF
  x_room : curve.p.digits ≤ pt.x.count
  y_room : curve.p.digits ≤ pt.y.count
  z_room : curve.p.digits ≤ pt.z.count

/-- `pt` is a Jacobian representative of `a`: with `Z ≠ 0` the coordinates of `a` are `X / Z ^ 2`
and `Y / Z ^ 3`, and `Z = 0` for the point at infinity. -/
structure EcPointProj.RepOf (curve : EcCurve Bn) (a : EcPoint Bn) (pt : EcPointProj Bn) : Prop
    extends EcPointProj.Slot curve pt where
  x_lt : pt.x.value < curve.p.value
  y_lt : pt.y.value < curve.p.value
  z_lt : pt.z.value < curve.p.value
  z_ne : pt.z.value ≠ 0 ↔ a.infinity = false
  x_eq : a.infinity = false → pt.x.value = a.x.value * pt.z.value ^ 2 % curve.p.value
  y_eq : a.infinity = false → pt.y.value = a.y.value * pt.z.value ^ 3 % curve.p.value

/-- Both runs return, and `ec_point_is_eq` holds of what they leave. -/
def SamePoint {B : Type} [BnOps B] (r r' : EStateM.Result Err (EcPoint B) Unit) : Prop :=
  ∃ t t', r = .ok () t ∧ r' = .ok () t' ∧ ecPointIsEq t t' = true

section

variable {curve : EcCurve Bn} [hp : Fact curve.p.value.Prime] {a b s : EcPoint Bn}
  {pa pb : EcPointProj Bn} {P Q : curve.Points}

/-! ## Representatives -/

theorem natCast_eq_zero {v : Nat} (hlt : v < curve.p.value) :
    (v : ZMod curve.p.value) = 0 ↔ v = 0 := by
  rw [ZMod.natCast_eq_zero_iff]
  exact ⟨fun h => Nat.eq_zero_of_dvd_of_lt h hlt, fun h => h ▸ dvd_zero _⟩

theorem EcPointProj.RepOf.holds (hc : curve.Valid) (h : pa.RepOf curve a)
    (hP : a.Means curve P) : JacHolds P (pa.map Bn.abs) := by
  have hroom := hc.limbCount_eq
  have hx : pa.x.abs = fe pa.x.count (pa.x.value : ZMod curve.p.value) := fe_eq h.x_lt rfl
  have hy : pa.y.abs = fe pa.y.count (pa.y.value : ZMod curve.p.value) := fe_eq h.y_lt rfl
  have hz : pa.z.abs = fe pa.z.count (pa.z.value : ZMod curve.p.value) := fe_eq h.z_lt rfl
  unfold EcPointProj.map
  rw [hx, hy, hz]
  refine .mk (hroom ▸ h.x_room) (hroom ▸ h.y_room) (hroom ▸ h.z_room) ?_
  rcases hP with ⟨hi, rfl⟩ | ⟨hi, hP⟩
  · have hz0 : pa.z.value = 0 := by
      by_contra hne
      rw [h.z_ne.mp hne] at hi
      nomatch hi
    rw [hz0, Nat.cast_zero]
    exact .infinite _ _
  · have hzne : (pa.z.value : ZMod curve.p.value) ≠ 0 :=
      (natCast_eq_zero h.z_lt).not.mpr (h.z_ne.mpr hi)
    refine .finite ⟨hzne, ?_⟩
    have hX : (pa.x.value : ZMod curve.p.value) / pa.z.value ^ 2 = a.x.value := by
      rw [h.x_eq hi, ZMod.natCast_mod, div_eq_iff (pow_ne_zero 2 hzne)]
      push_cast
      rfl
    have hY : (pa.y.value : ZMod curve.p.value) / pa.z.value ^ 3 = a.y.value := by
      rw [h.y_eq hi, ZMod.natCast_mod, div_eq_iff (pow_ne_zero 3 hzne)]
      push_cast
      rfl
    rw [hX, hY]
    exact hP

theorem EcPointProj.repOf_of_holds (hc : curve.Valid) (hwf : pa.WF) (hP : a.Means curve P)
    (h : JacHolds P (pa.map Bn.abs)) : pa.RepOf curve a := by
  have hmod : ∀ {v w : Nat}, v < curve.p.value → (v : ZMod curve.p.value) = w →
      v = w % curve.p.value := by
    intro v w hlt heq
    have := (ZMod.natCast_eq_natCast_iff' _ _ _).mp heq
    rwa [Nat.mod_eq_of_lt hlt] at this
  generalize hu : pa.map Bn.abs = u at h
  cases h with
  | mk hcx hcy hcz hrep =>
    injection hu with hux huy huz
    obtain ⟨hrx, hltx, rfl⟩ := hc.of_abs_eq_fe hcx hux
    obtain ⟨hry, hlty, rfl⟩ := hc.of_abs_eq_fe hcy huy
    obtain ⟨hrz, hltz, rfl⟩ := hc.of_abs_eq_fe hcz huz
    have hzero := hrep.z_eq_zero_iff
    rw [natCast_eq_zero hltz] at hzero
    have hcoords : a.infinity = false → (pa.z.value : ZMod curve.p.value) ≠ 0 ∧
        HasCoords P (a.x.value : ZMod curve.p.value) (a.y.value : ZMod curve.p.value) := by
      intro hi
      rcases hP with ⟨hi', -⟩ | ⟨-, hP⟩
      · rw [hi] at hi'
        nomatch hi'
      · exact ⟨fun h0 => hP.ne_zero (hrep.z_eq_zero_iff.mp h0), hP⟩
    -- `Z` is zero exactly for the point at infinity; elsewhere the affine coordinates are unique.
    refine ⟨⟨hwf.x, hwf.y, hwf.z, hrx, hry, hrz⟩, hltx, hlty, hltz, ⟨?_, ?_⟩, ?_, ?_⟩
    · intro hne
      rcases hP with ⟨-, rfl⟩ | ⟨hi, -⟩
      · exact absurd (hzero.mpr rfl) hne
      · exact hi
    · intro hi
      exact (natCast_eq_zero hltz).not.mp (hcoords hi).1
    · intro hi
      obtain ⟨hne, hP⟩ := hcoords hi
      obtain ⟨hX, -⟩ := (hrep.coords hne).coords.unique hP
      apply hmod hltx
      push_cast
      exact (div_eq_iff (pow_ne_zero 2 hne)).mp hX
    · intro hi
      obtain ⟨hne, hP⟩ := hcoords hi
      obtain ⟨-, hY⟩ := (hrep.coords hne).coords.unique hP
      apply hmod hlty
      push_cast
      exact (div_eq_iff (pow_ne_zero 3 hne)).mp hY

omit hp in
theorem EcPointProj.Slot.wf (h : pa.Slot curve) : pa.WF := ⟨h.x_wf, h.y_wf, h.z_wf⟩

omit hp in
theorem EcPoint.Slot.wf (h : s.Slot curve) : s.WF := ⟨h.x_wf, h.y_wf⟩

theorem projImport_repOf (hc : curve.Valid) (ha : a.OnCurve curve) (hs : pa.Slot curve) :
    ReturnsIn (EcPointProj.RepOf curve a) (ecPointProjImportAffine a pa) := by
  obtain ⟨P, hP⟩ := ha.exists_means hc
  have hroom := hc.limbCount_eq
  have himages : ProjImages (ecPointProjImportAffine a) (ecPointProjImportAffine (a.map Bn.abs)) :=
    ⟨_, ecPointProjImportAffine_hom bnHom (a.lift ha.wf),
      ecPointProjImportAffine_hom BigNum.absHom (a.lift ha.wf)⟩
  have hnum := projImport_holds hc.three_lt (ha.holds hc hP) (s := pa.map Bn.abs)
    (hroom ▸ hs.x_room) (hroom ▸ hs.y_room) (hroom ▸ hs.z_room)
  apply (himages.leaves hs.wf hnum).mono
  intro t ht
  exact EcPointProj.repOf_of_holds hc ht.1 hP ht.2

/-! ## The two runs -/

omit hp in
theorem isEq_of_abs {t t' : EcPoint Bn} (ht : t.WF) (ht' : t'.WF)
    (h : ecPointIsEq (t.map Bn.abs) (t'.map Bn.abs) = true) : ecPointIsEq t t' = true := by
  have h1 := ecPointIsEq_hom bnHom (t.lift ht) (t'.lift ht')
  have h2 := ecPointIsEq_hom BigNum.absHom (t.lift ht) (t'.lift ht')
  exact (h1.trans h2.symm).trans h

theorem samePoint_of_num {g g' : EStateM Err (EcPoint Bn) Unit}
    {k k' : EStateM Err (EcPoint BigNum.Num) Unit} (h : PointImages g k) (h' : PointImages g' k')
    {s s' : EcPoint Bn} (hs : s.WF) (hs' : s'.WF) (hk : ReturnsIn (Shows P) (k (s.map Bn.abs)))
    (hk' : ReturnsIn (Holds P) (k' (s'.map Bn.abs))) : SamePoint (g s) (g' s') := by
  obtain ⟨t, ht, hwf, hshows⟩ := h.leaves hs hk
  obtain ⟨t', ht', hwf', hholds⟩ := h'.leaves hs' hk'
  exact ⟨t, t', ht, ht', isEq_of_abs hwf hwf' (hshows.isEq hholds.shows)⟩

omit hp in
theorem viaProj_images (J : Junk) (hc : curve.Valid) {g : EStateM Err (EcPointProj Bn) Unit}
    {k : EStateM Err (EcPointProj BigNum.Num) Unit} (h : ProjImages g k) (hpa : pa.WF) :
    PointImages (viaProj J curve g pa) (viaProj J (curve.map Bn.abs) k (pa.map Bn.abs)) := by
  obtain ⟨f, hg, hk⟩ := h
  exact ⟨viaProj J hc.lift f (pa.lift hpa),
    fun s => viaProj_hom bnHom J hc.lift (pa.lift hpa) (hg _) s,
    fun s => viaProj_hom BigNum.absHom J hc.lift (pa.lift hpa) (hk _) s⟩

theorem viaProj_samePoint (hc : curve.Valid) (J : Junk) {g : EStateM Err (EcPointProj Bn) Unit}
    {k : EStateM Err (EcPointProj BigNum.Num) Unit} {g' : EStateM Err (EcPoint Bn) Unit}
    {k' : EStateM Err (EcPoint BigNum.Num) Unit} (h : ProjImages g k) (h' : PointImages g' k')
    (hpa : pa.WF) (hs : s.Slot curve) (ha : a.OnCurve curve)
    (hk : ReturnsIn (JacHolds P) (k (pa.map Bn.abs)))
    (hk' : ReturnsIn (Holds P) (k' (a.map Bn.abs))) :
    SamePoint (viaProj J curve g pa s) (g' a) := by
  have hroom := hc.limbCount_eq
  have hvia := viaProj_shows hc.numCurve J hk (s := s.map Bn.abs) (hroom ▸ hs.x_room)
    (hroom ▸ hs.y_room)
  exact samePoint_of_num (viaProj_images J hc h hpa) h' hs.wf ha.wf hvia hk'

section Images

variable {curve : EcCurve Bn} (J : Junk) (hc : curve.Valid) (build : Build) (n : Nat)
  {b : EcPoint Bn} {pb : EcPointProj Bn}

include hc

theorem projAdd_images (hpb : pb.WF) : ProjImages (ecPointProjAdd J curve (.val pb))
    (ecPointProjAdd J (curve.map Bn.abs) (.val (pb.map Bn.abs))) :=
  ⟨_, ecPointProjAdd_hom bnHom J hc.lift (.val (pb.lift hpb)),
    ecPointProjAdd_hom BigNum.absHom J hc.lift (.val (pb.lift hpb))⟩

theorem projAdd_self_images : ProjImages (ecPointProjAdd J curve .self)
    (ecPointProjAdd J (curve.map Bn.abs) .self) :=
  ⟨_, ecPointProjAdd_hom bnHom J hc.lift .self, ecPointProjAdd_hom BigNum.absHom J hc.lift .self⟩

theorem projAddMix_images (hb : b.WF) : ProjImages (ecPointProjAddMix build J curve b)
    (ecPointProjAddMix build J (curve.map Bn.abs) (b.map Bn.abs)) :=
  ⟨_, ecPointProjAddMix_hom bnHom build J hc.lift (b.lift hb),
    ecPointProjAddMix_hom BigNum.absHom build J hc.lift (b.lift hb)⟩

theorem projSub_images (hpb : pb.WF) : ProjImages (ecPointProjSub J curve pb)
    (ecPointProjSub J (curve.map Bn.abs) (pb.map Bn.abs)) :=
  ⟨_, ecPointProjSub_hom bnHom J hc.lift (pb.lift hpb),
    ecPointProjSub_hom BigNum.absHom J hc.lift (pb.lift hpb)⟩

theorem projSubMix_images (hb : b.WF) : ProjImages (ecPointProjSubMix build J curve b)
    (ecPointProjSubMix build J (curve.map Bn.abs) (b.map Bn.abs)) :=
  ⟨_, ecPointProjSubMix_hom bnHom build J hc.lift (b.lift hb),
    ecPointProjSubMix_hom BigNum.absHom build J hc.lift (b.lift hb)⟩

theorem projDblN_images : ProjImages (ecPointProjDblN build J curve n)
    (ecPointProjDblN build J (curve.map Bn.abs) n) := by
  -- the recursion hides that the curve over `WfBn` differs in `G` and `n` only
  have hcurve : ecPointProjDblN build J (hc.lift.map bnHom) n =
      ecPointProjDblN build J curve n := by
    unfold ecPointProjDblN
    rw [dblRepeat_congr (hc.lift.map bnHom) curve rfl rfl rfl rfl,
      dblAdd_congr (hc.lift.map bnHom) curve (fun _ => rfl)]
  have hnum : ecPointProjDblN build J (hc.lift.map BigNum.absHom) n =
      ecPointProjDblN build J (curve.map Bn.abs) n := by
    unfold ecPointProjDblN
    rw [dblRepeat_congr (hc.lift.map BigNum.absHom) (curve.map Bn.abs) rfl rfl rfl rfl,
      dblAdd_congr (hc.lift.map BigNum.absHom) (curve.map Bn.abs) (fun _ => rfl)]
  rw [← hcurve, ← hnum]
  exact ⟨_, ecPointProjDblN_hom bnHom build J hc.lift n,
    ecPointProjDblN_hom BigNum.absHom build J hc.lift n⟩

theorem affineDblN_images : PointImages (ecPointAffineDblN J curve n)
    (ecPointAffineDblN J (curve.map Bn.abs) n) := by
  have hcurve : ecPointAffineDblN J (hc.lift.map bnHom) n = ecPointAffineDblN J curve n :=
    ecPointAffineDblN_congr (hc.lift.map bnHom) curve (fun _ => rfl) J n
  have hnum : ecPointAffineDblN J (hc.lift.map BigNum.absHom) n =
      ecPointAffineDblN J (curve.map Bn.abs) n :=
    ecPointAffineDblN_congr (hc.lift.map BigNum.absHom) (curve.map Bn.abs) (fun _ => rfl) J n
  rw [← hcurve, ← hnum]
  exact ⟨_, ecPointAffineDblN_hom bnHom J hc.lift n,
    ecPointAffineDblN_hom BigNum.absHom J hc.lift n⟩

end Images

/-- The operations in projective coordinates at `a` and `b` with the representatives `pa` and `pb`,
each exported to the record `s`, against the affine ones. -/
structure ProjExact (build : Build) (J J' : Junk) (curve : EcCurve Bn) (a b : EcPoint Bn)
    (pa pb : EcPointProj Bn) (s : EcPoint Bn) (n : Nat) : Prop where
  add : SamePoint (viaProj (J 0) curve (ecPointProjAdd (J 1) curve (.val pb)) pa s)
    (ecPointAffineAdd J' curve (.val b) a)
  addSelf : SamePoint (viaProj (J 0) curve (ecPointProjAdd (J 1) curve .self) pa s)
    (ecPointAffineAdd J' curve .self a)
  addMix : SamePoint (viaProj (J 0) curve (ecPointProjAddMix build (J 1) curve b) pa s)
    (ecPointAffineAdd J' curve (.val b) a)
  sub : SamePoint (viaProj (J 0) curve (ecPointProjSub (J 1) curve pb) pa s)
    (ecPointAffineSub J' curve b a)
  subMix : SamePoint (viaProj (J 0) curve (ecPointProjSubMix build (J 1) curve b) pa s)
    (ecPointAffineSub J' curve b a)
  dblN : SamePoint (viaProj (J 0) curve (ecPointProjDblN build (J 1) curve n) pa s)
    (ecPointAffineDblN J' curve n a)

/-- Every representative is good for every operation, and an import is a representative. -/
theorem proj_exact (build : Build) (J J' : Junk) (hc : curve.Valid)
    (hbits : build.repeatDouble = true → curve.bitsRepeat ≤ 2048) (ha : a.OnCurve curve)
    (hb : b.OnCurve curve) :
    (∀ pa, pa.Slot curve → ReturnsIn (EcPointProj.RepOf curve a) (ecPointProjImportAffine a pa)) ∧
      ∀ pa pb, pa.RepOf curve a → pb.RepOf curve b → ∀ s, s.Slot curve → ∀ n, 1 ≤ n →
        ProjExact build J J' curve a b pa pb s n := by
  refine ⟨fun pa hpa => projImport_repOf hc ha hpa, ?_⟩
  intro pa pb hpa hpb s hs n hn
  obtain ⟨P, hP⟩ := ha.exists_means hc
  obtain ⟨Q, hQ⟩ := hb.exists_means hc
  have hnum := hc.numCurve
  have hA := ha.holds hc hP
  have hB := hb.holds hc hQ
  have hJA := hpa.holds hc hP
  have hJB := hpb.holds hc hQ
  have hwa := hpa.toSlot.wf
  have hwb := hpb.toSlot.wf
  have hself := affineAdd_self_holds hnum hA J'
  have hadd := affineAdd_holds hnum hA hB J'
  have hsub := affineSub_holds hnum hA hB J'
  exact {
    add := viaProj_samePoint hc _ (projAdd_images _ hc hwb) (affineAdd_images J' hc hb.wf) hwa hs ha
      (projAdd_holds hnum hJA hJB _) hadd
    addSelf := viaProj_samePoint hc _ (projAdd_self_images _ hc) (affineAdd_self_images J' hc) hwa
      hs ha (projAdd_self_holds hnum hJA _) hself
    addMix := viaProj_samePoint hc _ (projAddMix_images _ hc build hb.wf)
      (affineAdd_images J' hc hb.wf) hwa hs ha (projAddMix_holds hnum hJA hB _) hadd
    sub := viaProj_samePoint hc _ (projSub_images _ hc hwb) (affineSub_images J' hc hb.wf) hwa hs ha
      (projSub_holds hnum hJA hJB _) hsub
    subMix := viaProj_samePoint hc _ (projSubMix_images _ hc build hb.wf)
      (affineSub_images J' hc hb.wf) hwa hs ha (projSubMix_holds hnum hJA hB _) hsub
    dblN := viaProj_samePoint hc _ (projDblN_images _ hc build n) (affineDblN_images J' hc n) hwa hs
      ha (projDblN_holds hnum hbits hJA _ (Nat.ne_zero_of_lt hn)) (affineDblN_holds hnum hA J' n) }

end

/-- `(1, 1)` as `(4 : 1 : 2)` and `(5, 1)` as `(3 : 6 : 3)`. -/
theorem projExact_seven : ProjExact ⟨true, true⟩ blank blank curveSeven
    ⟨oneDigit 1 1, oneDigit 1 1, false⟩ ⟨oneDigit 1 5, oneDigit 1 1, false⟩
    ⟨oneDigit 1 4, oneDigit 1 1, oneDigit 1 2⟩ ⟨oneDigit 1 3, oneDigit 1 6, oneDigit 1 3⟩
    ⟨oneDigit 1 1, oneDigit 1 1, false⟩ 3 := by
  have hwf : ∀ d : Digit, d ≠ 0 → (oneDigit 1 d).WF :=
    fun d hd => oneDigit_wf (by decide) (by decide) hd
  have hslot : EcPoint.Slot curveSeven ⟨oneDigit 1 1, oneDigit 1 1, false⟩ :=
    ⟨hwf 1 (by decide), hwf 1 (by decide), by decide, by decide⟩
  have ha : EcPointProj.RepOf curveSeven ⟨oneDigit 1 1, oneDigit 1 1, false⟩
      ⟨oneDigit 1 4, oneDigit 1 1, oneDigit 1 2⟩ :=
    ⟨⟨hwf 4 (by decide), hwf 1 (by decide), hwf 2 (by decide), by decide, by decide, by decide⟩,
      by decide, by decide, by decide, by decide, by decide, by decide⟩
  have hb : EcPointProj.RepOf curveSeven ⟨oneDigit 1 5, oneDigit 1 1, false⟩
      ⟨oneDigit 1 3, oneDigit 1 6, oneDigit 1 3⟩ :=
    ⟨⟨hwf 3 (by decide), hwf 6 (by decide), hwf 3 (by decide), by decide, by decide, by decide⟩,
      by decide, by decide, by decide, by decide, by decide, by decide⟩
  have h := proj_exact ⟨true, true⟩ blank blank curveSeven_valid (by decide)
    (onCurve_seven (x := 1) (y := 1) (by decide) (by decide) (by decide) (by decide) (by decide))
    (onCurve_seven (x := 5) (y := 1) (by decide) (by decide) (by decide) (by decide) (by decide))
  exact h.2 _ _ ha hb _ hslot 3 (by decide)

end Curve
