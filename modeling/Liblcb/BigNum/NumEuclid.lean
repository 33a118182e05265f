import Liblcb.BigNum.NumMod
import Liblcb.Lib.Euclid

/-!
# The other inversions by value

`bn_mod_inv1` and `bn_mod_inv2` run Euclid's algorithm and keep its cofactors, the one without signs
and the other as residues; `bn_mod_inv_mont` runs a binary one.  The residue of a cofactor can be as
long as the modulus, so `bn_mod_inv2` fails on a quotient that is too long beside it.
-/

namespace BigNum.ByValue

open Limbs StateErr BnOps Euclid

variable {a c k q m u v : Nat} {σ : Type}

theorem bnDiv_other (J : Junk) {r x : Nat} (hv : v ≠ 0) (hu : limbCount 64 u < c)
    (hr : limbCount 64 (u % v) ≤ r) :
    bnDiv J (.val ⟨k, v⟩) (.other ⟨r, x⟩) (⟨c, u⟩ : Num) =
      .ok (some ⟨r, u % v⟩) ⟨c, u / v⟩ := by
  refine (if_neg hv).trans ?_
  by_cases heq : u = v
  · subst heq
    rw [Nat.mod_self, Nat.div_self (Nat.pos_of_ne_zero hv)]
    exact if_pos rfl
  · refine (if_neg heq).trans ?_
    by_cases hlt : u < v
    · rw [Nat.mod_eq_of_lt hlt] at hr ⊢
      rw [Nat.div_eq_of_lt hlt]
      exact (if_pos hlt).trans (if_neg (not_lt.mpr hr))
    · have hfull : ¬(c = limbCount 64 u ∧ topClz u < topClz v) := by omega
      exact (if_neg hlt).trans ((if_neg hfull).trans (if_neg (not_lt.mpr hr)))

/-! ## `bn_mod_inv1` -/

def inv1State (c u v : Nat) (p : Nat × Nat) (x : Inv1 Num) : Prop :=
  x.u1 = ⟨c, p.1⟩ ∧ x.v1 = ⟨c, p.2⟩ ∧ x.u3 = ⟨c, u⟩ ∧ x.v3 = ⟨c, v⟩ ∧
    x.q.count = c ∧ x.t1.count = c ∧ x.t3.count = c ∧ x.w.count = c

theorem limbCount_add_le {x y : Nat} (hc : limbCount 64 m < c) (hx : x ≤ m) (hy : y ≤ m)
    (hxy : x * y ≤ m) : limbCount 64 x + limbCount 64 y ≤ c := by
  have hle : ∀ z, z ≤ m → limbCount 64 z ≤ limbCount 64 m :=
    fun z hz => limbCount_mono (by decide) hz
  have hlx := hle x hx
  have hly := hle y hy
  by_cases hx0 : x = 0
  · rw [hx0, limbCount_zero]
    omega
  · by_cases hy0 : y = 0
    · rw [hy0, limbCount_zero]
      omega
    · have hmul := limbCount_add_le_mul (w := 64) (by decide) hx0 hy0
      have := hle _ hxy
      omega

theorem inv1Loop_eq (J : Junk) (hc : limbCount 64 m < c) (fuel : Nat) (p : Nat × Nat)
    (x : Inv1 Num) (neg : Bool) (s : σ) (hfuel : v < fuel) (hx : inv1State c u v p x)
    (hu0 : u ≠ 0) (hu : u ≤ m) (hv : v ≤ m) (hp : p.1 ≤ m)
    (hcross : p.2 * u + p.1 * v = m) :
    inv1Loop J fuel x neg s =
      .ok (⟨c, (cofactors p (quotients u v)).1⟩,
        neg ^^ decide ((quotients u v).length % 2 = 1)) s := by
  induction fuel generalizing u v p x neg with
  | zero => omega
  | succ fuel ih =>
    obtain ⟨p₀, p₁⟩ := p
    obtain ⟨⟨cq, xq⟩, ⟨ct1, xt1⟩, ⟨ct3, xt3⟩, xu1, xu3, xv1, xv3, ⟨cw, xw⟩⟩ := x
    obtain ⟨rfl, rfl, rfl, rfl, hq, ht1, ht3, hw⟩ := hx
    simp only at hq ht1 ht3 hw hp hcross ⊢
    subst cq ct1 ct3 cw
    rw [inv1Loop]
    by_cases hv0 : v = 0
    · subst hv0
      rw [quotients_zero]
      simp [cofactors]
    · have hfit : ∀ z, z ≤ m → limbCount 64 z ≤ c :=
        fun z hz => (limbCount_mono (by decide) hz).trans (Nat.le_of_lt hc)
      have hstep := cross_step p₀ p₁ u v
      rw [hcross] at hstep
      have hp₁ : p₁ ≤ m := by
        have := Nat.le_mul_of_pos_right p₁ (Nat.pos_of_ne_zero hu0)
        omega
      have hnext : p₀ + u / v * p₁ ≤ m := by
        have := Nat.le_mul_of_pos_right (p₀ + u / v * p₁) (Nat.pos_of_ne_zero hv0)
        omega
      have hquot : u / v ≤ m := (Nat.div_le_self u v).trans hu
      have hrem : u % v ≤ m := (Nat.mod_le u v).trans hu
      have hmod : (p₀ + u / v * p₁) % 2 ^ (64 * c) = p₀ + u / v * p₁ :=
        Nat.mod_eq_of_lt (lt_cap_of_limbCount_le (hfit _ hnext))
      have hmult := limbCount_add_le hc hquot hp₁ (by omega)
      have hu' : limbCount 64 u < c := (limbCount_mono (by decide) hu).trans_lt hc
      have hrec := ih (u := v) (v := u % v) (p₁, p₀ + u / v * p₁)
        ⟨⟨c, u / v⟩, ⟨c, p₀ + u / v * p₁⟩, ⟨c, u % v⟩, ⟨c, p₁⟩, ⟨c, v⟩,
          ⟨c, p₀ + u / v * p₁⟩, ⟨c, u % v⟩, ⟨c, u / v * p₁⟩⟩ (!neg)
        (by have := Nat.mod_lt u (Nat.pos_of_ne_zero hv0); omega)
        ⟨rfl, rfl, rfl, rfl, rfl, rfl, rfl, rfl⟩ hv0 hv hrem hp₁ hstep
      rw [quotients_of_ne_zero u hv0, List.length_cons, cofactors]
      have hz : ¬bnIsZero (⟨c, v⟩ : Num) = true := by simpa using hv0
      rw [if_neg hz]
      simp only [bind_apply, exec_apply, runOn_apply]
      rw [bnAssign_val (hfit _ hu), fold_ok, fold_ok, bnDiv_other _ hv0 hu' (hfit _ hrem), fold_ok,
        fold_ok]
      simp only [Option.getD_some]
      rw [bnAssign_val (hfit _ hquot), fold_ok, fold_ok, bnMult_val _ hmult, fold_ok, fold_ok,
        bnAssign_val (hfit _ hp), fold_ok, fold_ok, bnAdd_val (hfit _ (by omega)), fold_ok, fold_ok,
        hmod, bnAssign_val (hfit _ hp₁), fold_ok, fold_ok, bnAssign_val (hfit _ hnext), fold_ok,
        fold_ok, bnAssign_val (hfit _ hv), fold_ok, fold_ok, bnAssign_val (hfit _ hrem), fold_ok,
        fold_ok, hrec]
      -- one more quotient turns the sign around
      have hparity : (!neg ^^ decide ((quotients v (u % v)).length % 2 = 1)) =
          (neg ^^ decide (((quotients v (u % v)).length + 1) % 2 = 1)) := by
        have hsucc : ((quotients v (u % v)).length + 1) % 2 = 1 ↔
            ¬(quotients v (u % v)).length % 2 = 1 := by omega
        by_cases hodd : (quotients v (u % v)).length % 2 = 1
        · simp [hsucc, hodd]
        · simp [hsucc, hodd]
      rw [hparity]

/-- The last but one cofactor of Euclid's algorithm on `m` and `a`. -/
def lastCofactor (m a : Nat) : Nat := (cofactors (0, 1) (quotients m a)).1

theorem bnModInv1_run (J : Junk) (hdig : limbCount 64 m ≤ 28) (ha0 : a ≠ 0) (ha : a < m) :
    bnModInv1 J (.val ⟨q, m⟩) (⟨c, a⟩ : Num) =
      if (quotients m a).length % 2 = 1 then
        bnAssign (.val ⟨4 + limbCount 64 m, lastCofactor m a⟩) ⟨c, a⟩
      else
        (do
          bnAssign (.val (⟨q, m⟩ : Num))
          let _ ← bnSub (.val (⟨4 + limbCount 64 m, lastCofactor m a⟩ : Num))
          pure () : BnM Num Unit) ⟨c, a⟩ := by
  have hm := lt_loopFuel (show 64 * 28 ≤ 8192 by decide) (lt_cap_of_limbCount_le hdig)
  have hla := limbCount_mono (w := 64) (by decide) (Nat.le_of_lt ha)
  have hloop := fun s : Num => inv1Loop_eq (J 8) (show limbCount 64 m < 4 + limbCount 64 m by omega)
    loopFuel (1, 0) ⟨⟨4 + limbCount 64 m, 0⟩, ⟨4 + limbCount 64 m, 0⟩, ⟨4 + limbCount 64 m, 0⟩,
      ⟨4 + limbCount 64 m, 1⟩, ⟨4 + limbCount 64 m, a⟩, ⟨4 + limbCount 64 m, 0⟩,
      ⟨4 + limbCount 64 m, m⟩, ⟨4 + limbCount 64 m, 0⟩⟩ false s
    hm ⟨rfl, rfl, rfl, rfl, rfl, rfl, rfl, rfl⟩ ha0
    (Nat.le_of_lt ha) le_rfl (show 1 ≤ m by omega) (by ring)
  -- the first round only brings the two numbers into order
  rw [quotients_of_lt ha, cofactors, List.length_cons] at hloop
  have hbad : ¬invArgsBad (⟨c, a⟩ : Num) ⟨q, m⟩ = true := by
    rw [invArgsBad_eq ha0 ha]
    decide
  rw [bnModInv1, bind_apply, get_apply, fold_ok]
  refine (ite_apply_neg hbad).trans ?_
  have hbits : invBits (⟨c, a⟩ : Num) ((Arg.val ⟨q, m⟩).get ⟨c, a⟩) = (4 + limbCount 64 m) * 64 :=
    invBits_eq ha
  have hinit := bnInit_mul (show 4 + limbCount 64 m ≠ 0 by omega) (by omega)
  have hzero : bnAssignZero (⟨4 + limbCount 64 m, 0⟩ : Num) = .ok () ⟨4 + limbCount 64 m, 0⟩ := rfl
  rw [hbits, exec_bind_of_ok (hinit _), exec_bind_of_ok (hinit _), exec_bind_of_ok (hinit _),
    exec_bind_of_ok (hinit _), exec_bind_of_ok (hinit _), exec_bind_of_ok (hinit _),
    exec_bind_of_ok (hinit _), exec_bind_of_ok (hinit _),
    exec_bind_of_ok (bnAssignDigit_one (by omega) _), exec_bind_of_ok hzero,
    exec_bind_of_ok (bnAssign_val (by omega)), Arg.get_val,
    exec_bind_of_ok (bnAssign_val (by omega)), bind_of_ok (hloop _)]
  have hsucc : ((quotients m a).length + 1) % 2 = 1 ↔ ¬(quotients m a).length % 2 = 1 := by omega
  by_cases hodd : (quotients m a).length % 2 = 1
  · simp [hsucc, hodd, lastCofactor]
  · simp [hsucc, hodd, lastCofactor]

/-- The inverse of `a` modulo `m`, as Euclid's algorithm finds it. -/
def inverse (m a : Nat) : Nat :=
  if (quotients m a).length % 2 = 1 then lastCofactor m a else m - lastCofactor m a

theorem lastCofactor_mem (ha0 : a ≠ 0) (ha : a < m) :
    lastCofactor m a ≠ 0 ∧ lastCofactor m a < m :=
  cofactors_prev_mem (p := (0, 1)) ha0 ha one_ne_zero (by ring)

theorem inverse_lt (ha0 : a ≠ 0) (ha : a < m) : inverse m a < m := by
  have h := lastCofactor_mem ha0 ha
  unfold inverse
  split <;> omega

theorem inverse_mul (ha0 : a ≠ 0) (ha : a < m) (hcop : Nat.Coprime a m) :
    (inverse m a : ZMod m) * a = 1 := by
  have htracks : Tracks (a : ZMod m) 1 m a (0, 1) := ⟨by simp, by simp⟩
  have hrun : (lastCofactor m a : ZMod m) * a = -(1 * (-1) ^ (quotients m a).length * Nat.gcd m a) :=
    htracks.run
  rw [Nat.gcd_comm, hcop.gcd_eq_one, Nat.cast_one, mul_one, one_mul] at hrun
  unfold inverse
  by_cases hodd : (quotients m a).length % 2 = 1
  · rw [if_pos hodd, hrun, (Nat.odd_iff.mpr hodd).neg_one_pow, neg_neg]
  · have heven : Even (quotients m a).length := Nat.even_iff.mpr (by omega)
    rw [if_neg hodd, Nat.cast_sub (Nat.le_of_lt (lastCofactor_mem ha0 ha).2), sub_mul, hrun,
      ZMod.natCast_self, zero_mul, heven.neg_one_pow, zero_sub, neg_neg]

theorem eq_inverse {r : Nat} (ha0 : a ≠ 0) (ha : a < m) (hcop : Nat.Coprime a m) (hr : r < m)
    (hinv : (r : ZMod m) * a = 1) : r = inverse m a := by
  have hcast : (r : ZMod m) = inverse m a := by
    calc (r : ZMod m) = r * (inverse m a * a) := by rw [inverse_mul ha0 ha hcop, mul_one]
      _ = r * a * inverse m a := by ring
      _ = inverse m a := by rw [hinv, one_mul]
  have hmod := (ZMod.natCast_eq_natCast_iff' r _ m).mp hcast
  rwa [Nat.mod_eq_of_lt hr, Nat.mod_eq_of_lt (inverse_lt ha0 ha)] at hmod

/-! ## `bn_mod_inv2` -/

def residue (m : Nat) (neg : Bool) (p : Nat) : Nat := if neg then (m - p) % m else p % m

theorem residue_lt (neg : Bool) (p : Nat) (hm : m ≠ 0) : residue m neg p < m := by
  unfold residue
  split <;> exact Nat.mod_lt _ (Nat.pos_of_ne_zero hm)

theorem residue_cast {p : Nat} (neg : Bool) (hp : p ≤ m) :
    (residue m neg p : ZMod m) = (if neg then -1 else 1) * p := by
  cases neg with
  | true => simp [residue, Nat.cast_sub hp]
  | false => simp [residue]

theorem eq_of_cast {x y : Nat} (hx : x < m) (hy : y < m) (h : (x : ZMod m) = y) : x = y := by
  have hmod := (ZMod.natCast_eq_natCast_iff' x y m).mp h
  rwa [Nat.mod_eq_of_lt hx, Nat.mod_eq_of_lt hy] at hmod

theorem residue_step {p₀ p₁ : Nat} (neg : Bool) (hm : m ≠ 0) (h₁ : p₁ ≤ m)
    (hnext : p₀ + q * p₁ ≤ m) :
    (residue m (!neg) p₀ + (m - q * residue m neg p₁ % m)) % m =
      residue m (!neg) (p₀ + q * p₁) := by
  have hpos := Nat.pos_of_ne_zero hm
  apply eq_of_cast (Nat.mod_lt _ hpos) (residue_lt _ _ hm)
  have hlt := Nat.mod_lt (q * residue m neg p₁) hpos
  rw [cast_sub_mod (Nat.le_of_lt hlt), ZMod.natCast_mod, residue_cast _ hnext,
    residue_cast _ (by omega), Nat.cast_mul, residue_cast _ h₁]
  push_cast
  cases neg with
  | true => simp
  | false =>
    simp only [Bool.not_false, if_true, Bool.false_eq_true, if_false]
    ring

/-- The quotient `x` and the residue `d` of a round have a product that `bn_mult` and the reduction
behind it can take in `c` digits. -/
def ProductFits (c m x d : Nat) : Prop :=
  limbCount 64 x + limbCount 64 d ≤ c ∧
    (limbCount 64 (x * d) = c → topClz m ≤ topClz (x * d))

theorem bnModMult_fits (J : Junk) {x d : Nat} (hm : m ≠ 0) (h : ProductFits c m x d) :
    bnModMult J (.val ⟨k, d⟩) (.val ⟨q, m⟩) (⟨c, x⟩ : Num) = .ok () ⟨c, x * d % m⟩ := by
  apply bnModMult_of_fits J (.val ⟨k, d⟩) hm rfl
  by_cases hfull : limbCount 64 (x * d) = c
  · exact Or.inr (Or.inr ⟨h.1, Or.inr (Or.inr (h.2 hfull))⟩)
  · exact Or.inr (Or.inr ⟨h.1, Or.inr (Or.inl hfull)⟩)

theorem bnModMult_wide (J : Junk) {x d : Nat} (hm : m ≠ 0) (hc : limbCount 64 m < c) (hx : x ≠ 0)
    (hd : d ≠ 0) (h : ¬ProductFits c m x d) :
    ∃ t, bnModMult J (.val ⟨k, d⟩) (.val ⟨q, m⟩) (⟨c, x⟩ : Num) = .error .eoverflow t := by
  apply bnModMult_of_not_fits J (.val ⟨k, d⟩) hm rfl
  intro hfits
  obtain ⟨hroom, hred⟩ := (hfits.resolve_left hx).resolve_left hd
  refine h ⟨hroom, fun hfull => ?_⟩
  -- a product below the modulus does not fill the digits
  have hge : ¬x * d < m := by
    intro hlt
    have := limbCount_mono (w := 64) (by decide) (Nat.le_of_lt hlt)
    omega
  exact (hred.resolve_left hge).resolve_left (not_not.mpr hfull)

def FitsAfter (c m : Nat) (p : Nat × Nat) (neg : Bool) (qs : List Nat) : Prop :=
  ∀ as x bs, qs = as ++ x :: bs → (neg ^^ decide (as.length % 2 = 1)) = true →
    ProductFits c m x (m - (cofactors p as).2)

theorem fitsAfter_cons {p : Nat × Nat} {neg : Bool} {x : Nat} {qs : List Nat} :
    FitsAfter c m p neg (x :: qs) ↔
      (neg = true → ProductFits c m x (m - p.2)) ∧
        FitsAfter c m (p.2, p.1 + x * p.2) (!neg) qs := by
  have hparity : ∀ n : Nat, (neg ^^ decide ((n + 1) % 2 = 1)) = (!neg ^^ decide (n % 2 = 1)) := by
    intro n
    have hsucc : (n + 1) % 2 = 1 ↔ ¬n % 2 = 1 := by omega
    by_cases hodd : n % 2 = 1
    · simp [hsucc, hodd]
    · simp [hsucc, hodd]
  constructor
  · intro h
    constructor
    · intro hneg
      exact h [] x qs rfl (by simp [hneg])
    · rintro as y bs rfl hsign
      rw [← hparity] at hsign
      exact h (x :: as) y bs rfl hsign
  · rintro ⟨hhead, htail⟩ as y bs heq hsign
    cases as with
    | nil =>
      cases heq
      exact hhead (by simpa using hsign)
    | cons z as =>
      cases heq
      rw [List.length_cons, hparity] at hsign
      exact htail as y bs rfl hsign

/-- The three rotating pointers: at most one of them is `bn`, and all have `room` digits. -/
structure Ptrs (room : Nat) (pu pv pr : Arg Num) (s : Num) (u v : Nat) : Prop where
  u_val : (pu.get s).val = u
  v_val : (pv.get s).val = v
  u_room : room ≤ (pu.get s).count
  v_room : room ≤ (pv.get s).count
  r_room : room ≤ (pr.get s).count
  uv : ¬(pu = .self ∧ pv = .self)
  vr : ¬(pv = .self ∧ pr = .self)
  ru : ¬(pr = .self ∧ pu = .self)

theorem Ptrs.store {room w : Nat} {pu pv pr : Arg Num} {s : Num} (h : Ptrs room pu pv pr s u v) :
    ∃ pr' s', storePtr pr ⟨(pr.get s).count, w⟩ s = .ok pr' s' ∧ s'.count = s.count ∧
      Ptrs room pv pr' pu s' v w := by
  obtain ⟨hu, hv, hru, hrv, hrr, huv, hvr, hru'⟩ := h
  cases pr with
  | self =>
    refine ⟨.self, ⟨s.count, w⟩, rfl, rfl, ?_⟩
    cases pu with
    | self => exact absurd ⟨rfl, rfl⟩ hru'
    | val x =>
      cases pv with
      | self => exact absurd ⟨rfl, rfl⟩ hvr
      | val y => exact ⟨hv, rfl, hrv, hrr, hru, hvr, hru', huv⟩
  | val r => exact ⟨.val ⟨r.count, w⟩, s, rfl, rfl, hv, rfl, hrv, hrr, hru, by simp, by simp, huv⟩

theorem productFits_residue {x p : Nat} (neg : Bool) (hc : limbCount 64 m < c) (hp0 : p ≠ 0)
    (hp : p < m) (hx : x ≤ m) (hxp : x * p ≤ m) :
    ProductFits c m x (residue m neg p) ↔ (neg = true → ProductFits c m x (m - p)) := by
  cases neg with
  | true =>
    rw [residue, if_pos rfl, Nat.mod_eq_of_lt (by omega)]
    simp
  | false =>
    have hlt := (limbCount_mono (w := 64) (by decide) hxp).trans_lt hc
    rw [residue, if_neg Bool.false_ne_true, Nat.mod_eq_of_lt hp]
    refine iff_of_true ⟨limbCount_add_le hc hx (Nat.le_of_lt hp) hxp, ?_⟩ (by simp)
    intro hfull
    omega

theorem inv2Loop_eq (J : Junk) {room : Nat} (hc : limbCount 64 m < c) (fuel : Nat) (p : Nat × Nat)
    (neg : Bool) (pu pv pr : Arg Num) (x xd : Nat) (s : Num) (hfuel : v < fuel)
    (hptr : Ptrs room pu pv pr s u v) (hroom : limbCount 64 v ≤ room) (hvu : v < u) (hu : u ≤ m)
    (hp0 : p.1 ≤ m) (hp : p.2 ≠ 0) (hcross : p.2 * u + p.1 * v = m) :
    (FitsAfter c m p neg (quotients u v) → ∃ s', s'.count = s.count ∧
      inv2Loop J (⟨k, m⟩ : Num) fuel pu pv pr ⟨c, x⟩ ⟨c, xd⟩ ⟨c, residue m neg p.2⟩
        ⟨c, residue m (!neg) p.1⟩ s =
        .ok ⟨c, residue m (neg ^^ decide ((quotients u v).length % 2 = 0))
          (cofactors p (quotients u v)).1⟩ s') ∧
    (¬FitsAfter c m p neg (quotients u v) → ∃ e s',
      inv2Loop J (⟨k, m⟩ : Num) fuel pu pv pr ⟨c, x⟩ ⟨c, xd⟩ ⟨c, residue m neg p.2⟩
        ⟨c, residue m (!neg) p.1⟩ s = .error e s') := by
  induction fuel generalizing u v p neg pu pv pr x xd s with
  | zero => omega
  | succ fuel ih =>
    obtain ⟨p₀, p₁⟩ := p
    simp only at hp hp0 hcross ⊢
    have hm : m ≠ 0 := by omega
    rw [inv2Loop]
    simp only [bind_apply, get_apply, fold_ok, StateErr.ite_apply, bnIsZero_eq, hptr.v_val,
      decide_eq_true_eq]
    by_cases hv0 : v = 0
    · subst hv0
      rw [quotients_zero]
      refine ⟨fun _ => ⟨s, rfl, by simp [cofactors]⟩, fun h => absurd ?_ h⟩
      rintro (_ | ⟨y, as⟩) z bs ⟨⟩
    · have hstep := cross_step p₀ p₁ u v
      rw [hcross] at hstep
      have hmod := Nat.mod_lt u (Nat.pos_of_ne_zero hv0)
      have hp₁ : p₁ < m := by
        have : p₁ * 2 ≤ p₁ * u := Nat.mul_le_mul_left _ (by omega)
        omega
      have hnext : p₀ + u / v * p₁ ≤ m := by
        have := Nat.le_mul_of_pos_right (p₀ + u / v * p₁) (Nat.pos_of_ne_zero hv0)
        omega
      have hquot : u / v ≤ m := (Nat.div_le_self u v).trans hu
      have hquot0 : u / v ≠ 0 := (Nat.div_pos (Nat.le_of_lt hvu) (Nat.pos_of_ne_zero hv0)).ne'
      have hu' : limbCount 64 u < c := (limbCount_mono (by decide) hu).trans_lt hc
      have hmul : u / v * p₁ ≠ 0 := Nat.mul_ne_zero hquot0 hp
      have hfits := productFits_residue neg hc hp hp₁ hquot (by omega)
      have hres0 : residue m neg p₁ ≠ 0 := by
        cases neg with
        | true =>
          rw [residue, if_pos rfl, Nat.mod_eq_of_lt (by omega)]
          omega
        | false => rwa [residue, if_neg Bool.false_ne_true, Nat.mod_eq_of_lt hp₁]
      have hreslt : ∀ neg p, residue m neg p < m := fun neg p => residue_lt neg p hm
      have hfit : ∀ z, z < m → limbCount 64 z ≤ c :=
        fun z hz => limbCount_le_of_lt hz (Nat.le_of_lt hc)
      -- the division, and the remainder in its place
      have hpu : pu.get s = ⟨(pu.get s).count, u⟩ := by rw [← hptr.u_val]
      have hpv : pv.get s = ⟨(pv.get s).count, v⟩ := by rw [← hptr.v_val]
      have hrem : limbCount 64 (u % v) ≤ (pr.get s).count :=
        ((limbCount_mono (by decide) (Nat.le_of_lt hmod)).trans hroom).trans hptr.r_room
      have hdiv := bnDiv_other (k := (pv.get s).count) (x := (pr.get s).val) (J (3 * fuel)) hv0
        hu' hrem
      obtain ⟨pr', s', hstore, hcount, hptr'⟩ := hptr.store (w := u % v)
      rw [if_neg hv0, exec_apply, hpu, bnAssign_val (Nat.le_of_lt hu'), fold_ok,
        fold_ok, runOn_apply, hpv, hdiv, fold_ok, fold_ok]
      simp only [Option.getD_some]
      rw [hstore, fold_ok, exec_apply, quotients_of_ne_zero u hv0, fitsAfter_cons, List.length_cons,
        cofactors]
      have hsub := residue_step (q := u / v) neg hm (Nat.le_of_lt hp₁) hnext
      have hprodlt := Nat.mod_lt (u / v * residue m neg p₁) (Nat.pos_of_ne_zero hm)
      have hrec := ih (p₁, p₀ + u / v * p₁) (!neg) pv pr' pu (u / v * residue m neg p₁ % m)
        (residue m (!neg) p₀) s' (by omega) hptr'
        ((limbCount_mono (by decide) (Nat.le_of_lt hmod)).trans hroom) hmod (by omega)
        (Nat.le_of_lt hp₁) (show p₀ + u / v * p₁ ≠ 0 by omega) hstep
      rw [Bool.not_not] at hrec
      by_cases hhead : neg = true → ProductFits c m (u / v) (m - p₁)
      · rw [bnModMult_fits _ hm (hfits.mpr hhead), fold_ok, fold_ok, exec_apply,
          bnAssign_val (hfit _ (hreslt _ _)), fold_ok, fold_ok, exec_apply,
          bnModSub_eq _ hm (Nat.le_of_lt (hreslt _ _)) hprodlt (Nat.le_of_lt hc), fold_ok, fold_ok,
          hsub]
        -- one more quotient turns the sign around
        have hparity : (!neg ^^ decide ((quotients v (u % v)).length % 2 = 0)) =
            (neg ^^ decide (((quotients v (u % v)).length + 1) % 2 = 0)) := by
          have hsucc : ((quotients v (u % v)).length + 1) % 2 = 0 ↔
              ¬(quotients v (u % v)).length % 2 = 0 := by omega
          by_cases heven : (quotients v (u % v)).length % 2 = 0
          · simp [hsucc, heven]
          · simp [hsucc, heven]
        rw [← hparity]
        constructor
        · rintro ⟨-, htail⟩
          obtain ⟨t, ht, hrun⟩ := hrec.1 htail
          exact ⟨t, ht.trans hcount, hrun⟩
        · intro hnot
          exact hrec.2 fun htail => hnot ⟨hhead, htail⟩
      · obtain ⟨t, ht⟩ := bnModMult_wide (k := c) (q := k) (J (3 * fuel + 1)) hm hc hquot0 hres0
          (fun h => hhead (hfits.mp h))
        rw [ht]
        exact ⟨fun h => absurd h.1 hhead, fun _ => ⟨_, _, rfl⟩⟩

theorem residue_lastCofactor (ha0 : a ≠ 0) (ha : a < m) :
    residue m (decide ((quotients m a).length % 2 = 0)) (lastCofactor m a) = inverse m a := by
  have hmem := lastCofactor_mem ha0 ha
  by_cases hodd : (quotients m a).length % 2 = 1
  · rw [inverse, if_pos hodd, decide_eq_false (by omega), residue, if_neg Bool.false_ne_true,
      Nat.mod_eq_of_lt hmem.2]
  · rw [inverse, if_neg hodd, decide_eq_true (by omega), residue, if_pos rfl,
      Nat.mod_eq_of_lt (by omega)]

/-- `bn_mod_inv2` up to the assignment of its result; a quotient that does not fit ends it. -/
theorem bnModInv2_run (J : Junk) (hdig : limbCount 64 m ≤ 28) (ha0 : a ≠ 0) (ha : a < m)
    (hca : limbCount 64 a ≤ c) :
    (FitsAfter (4 + limbCount 64 m) m (0, 1) false (quotients m a) → ∃ s' : Num, s'.count = c ∧
      bnModInv2 J (.val ⟨q, m⟩) (⟨c, a⟩ : Num) =
        bnAssign (.val ⟨4 + limbCount 64 m, inverse m a⟩) s') ∧
    (¬FitsAfter (4 + limbCount 64 m) m (0, 1) false (quotients m a) → ∃ e s',
      bnModInv2 J (.val ⟨q, m⟩) (⟨c, a⟩ : Num) = .error e s') := by
  have hm := lt_loopFuel (show 64 * 28 ≤ 8192 by decide) (lt_cap_of_limbCount_le hdig)
  have hla := limbCount_mono (w := 64) (by decide) (Nat.le_of_lt ha)
  have hL : limbCount 64 m ≤ 4 + limbCount 64 m := by omega
  have hptr : Ptrs (limbCount 64 a) (.val ⟨4 + limbCount 64 m, m⟩) .self
      (.val ⟨4 + limbCount 64 m, 0⟩) (⟨c, a⟩ : Num) m a :=
    ⟨rfl, rfl, hla.trans hL, hca, hla.trans hL, by simp, by simp, by simp⟩
  have hloop := inv2Loop_eq (k := q) (J 6) (show limbCount 64 m < 4 + limbCount 64 m by omega)
    loopFuel (0, 1) false _ _ _ 0 0 _ (ha.trans hm) hptr le_rfl ha le_rfl (Nat.zero_le m)
    (show 1 ≠ 0 from one_ne_zero) (by ring)
  -- the loop starts with the cofactors 1 and 0
  have hd1 : residue m false 1 = 1 := by
    rw [residue, if_neg Bool.false_ne_true, Nat.mod_eq_of_lt (by omega)]
  have hd2 : residue m (!false) 0 = 0 := by
    rw [residue, Bool.not_false, if_pos rfl, Nat.sub_zero, Nat.mod_self]
  rw [hd1, hd2, Bool.false_xor] at hloop
  have hres := residue_lastCofactor ha0 ha
  rw [lastCofactor] at hres
  rw [hres] at hloop
  have hbad : ¬invArgsBad (⟨c, a⟩ : Num) ⟨q, m⟩ = true := by
    rw [invArgsBad_eq ha0 ha]
    decide
  have hbits : invBits (⟨c, a⟩ : Num) ((Arg.val ⟨q, m⟩).get ⟨c, a⟩) = (4 + limbCount 64 m) * 64 :=
    invBits_eq ha
  have hinit := bnInit_mul (show 4 + limbCount 64 m ≠ 0 by omega) (by omega)
  have hzero : bnAssignZero (⟨4 + limbCount 64 m, 0⟩ : Num) = .ok () ⟨4 + limbCount 64 m, 0⟩ := rfl
  -- up to the loop every local fits, so the call comes to it
  have hstart : bnModInv2 J (.val ⟨q, m⟩) (⟨c, a⟩ : Num) =
      (do
        let d2 ← inv2Loop (J 6) ⟨q, m⟩ loopFuel (.val ⟨4 + limbCount 64 m, m⟩) .self
          (.val ⟨4 + limbCount 64 m, 0⟩) ⟨4 + limbCount 64 m, 0⟩ ⟨4 + limbCount 64 m, 0⟩
          ⟨4 + limbCount 64 m, 1⟩ ⟨4 + limbCount 64 m, 0⟩
        bnAssign (.val d2) : BnM Num Unit) ⟨c, a⟩ := by
    rw [bnModInv2, bind_apply, get_apply, fold_ok]
    refine (ite_apply_neg hbad).trans ?_
    rw [hbits, exec_bind_of_ok (hinit _), exec_bind_of_ok (hinit _), exec_bind_of_ok (hinit _),
      exec_bind_of_ok (hinit _), exec_bind_of_ok (hinit _), exec_bind_of_ok (hinit _), Arg.get_val,
      exec_bind_of_ok (bnAssign_val hL), exec_bind_of_ok hzero,
      exec_bind_of_ok (bnAssignDigit_one (by omega) _)]
  rw [hstart]
  constructor
  · intro hfits
    obtain ⟨s', hcount, hrun⟩ := hloop.1 hfits
    exact ⟨s', hcount, bind_of_ok hrun _⟩
  · intro hnot
    obtain ⟨e, s', hrun⟩ := hloop.2 hnot
    exact ⟨e, s', bind_of_error hrun _⟩

/-! ## `bn_mod_inv_mont` -/

theorem subHalfMod_inv {x y s t : Nat} (hodd : m % 2 = 1) (hc : limbCount 64 m < c) (hx : x < m)
    (hy : y < m) (hts : t < s) (hlt : s - t < m) (heven : (s - t) % 2 = 0)
    (hxs : (x : ZMod m) * a = s) (hyt : (y : ZMod m) * a = t) :
    ∃ x', subHalfMod (⟨q, m⟩ : Num) ⟨k, y⟩ ⟨c, x⟩ = .ok () ⟨c, x'⟩ ∧ x' < m ∧
      (x' : ZMod m) * a = ((s - t) / 2 : Nat) := by
  have hroom := four_mul_le_cap hc
  have hinv : (((x + (m - y)) % m : Nat) : ZMod m) * a = (s - t : Nat) := by
    rw [cast_sub_mod (Nat.le_of_lt hy), sub_mul, hxs, hyt, Nat.cast_sub (Nat.le_of_lt hts)]
  obtain ⟨x', hrun, hx', hval⟩ := halfMod_inv (q := q) hodd hc
    (Nat.mod_lt _ (show 0 < m by omega)) (show s - t ≠ 0 by omega) hlt heven hinv
  refine ⟨x', ?_, hx', hval⟩
  simp only [subHalfMod, bind_apply, get_apply, fold_ok, onlyIf_apply, bnCmp_eq]
  by_cases hxy : x < y
  · rw [if_pos (Nat.compare_eq_lt.mpr hxy), bnAdd_val (Nat.le_of_lt hc), fold_ok, pure_apply, fold_ok,
      Nat.mod_eq_of_lt (show x + m < 2 ^ (64 * c) by omega), bnSub_of_le (by omega) (by omega),
      fold_ok, show x + m - y = (x + (m - y)) % m by rw [Nat.mod_eq_of_lt (by omega)]; omega]
    exact hrun
  · have hcmp : ¬compare x y = .lt := fun h => hxy (Nat.compare_eq_lt.mp h)
    rw [if_neg hcmp, fold_ok, bnSub_of_le (by omega) (by omega), fold_ok,
      show x - y = (x + (m - y)) % m by
        rw [show x + (m - y) = x - y + m by omega, Nat.add_mod_right, Nat.mod_eq_of_lt (by omega)]]
    exact hrun

/-- What the loop of `bn_mod_div_mont` keeps when it inverts `a`. -/
structure MontState (m a x y u v : Nat) : Prop where
  x_pos : x ≠ 0
  y_pos : y ≠ 0
  x_le : x ≤ m
  y_le : y ≤ m
  u_lt : u < m
  v_lt : v < m
  inv_u : (u : ZMod m) * a = x
  inv_v : (v : ZMod m) * a = y
  coprime : Nat.Coprime x y

theorem divMontLoop_eq {d : Nat} (hodd : m % 2 = 1) (hc : limbCount 64 m < c)
    (hd : limbCount 64 m < d) (fuel x y u v : Nat) (hfuel : x + y < fuel)
    (h : MontState m a x y u v) :
    ∃ r, divMontLoop (⟨q, m⟩ : Num) fuel ⟨c, v⟩ ⟨c, x⟩ ⟨c, y⟩ ⟨d, u⟩ = .ok () ⟨d, r⟩ ∧ r < m ∧
      (r : ZMod m) * a = 1 := by
  induction fuel generalizing x y u v with
  | zero => omega
  | succ fuel ih =>
    have hx0 := h.x_pos
    have hy0 := h.y_pos
    have hxm := h.x_le
    have hym := h.y_le
    have hmcap := lt_cap_of_limbCount_le (Nat.le_of_lt hc)
    rw [divMontLoop]
    simp only [StateErr.ite_apply, bnCmp_eq, bnIsEven_eq, decide_eq_true_eq]
    by_cases heq : x = y
    · -- equal coprime numbers are one
      have hone : x = 1 := by
        have hcop := h.coprime
        rwa [← heq, Nat.coprime_self] at hcop
      refine ⟨u, ?_, h.u_lt, ?_⟩
      · rw [if_pos (by rw [heq]; exact Nat.compare_eq_eq.mpr rfl), pure_apply]
      · rw [h.inv_u, hone, Nat.cast_one]
    · have hcmp : ¬compare x y = .eq := fun hcmp => heq (Nat.compare_eq_eq.mp hcmp)
      rw [if_neg hcmp]
      by_cases hxe : x % 2 = 0
      · obtain ⟨u', hrun, hu', hinv⟩ := halfMod_inv (q := q) hodd hd h.u_lt hx0 (by omega) hxe
          h.inv_u
        have hnext : MontState m a (x / 2) y u' v :=
          { x_pos := by omega
            y_pos := hy0
            x_le := by omega
            y_le := hym
            u_lt := hu'
            v_lt := h.v_lt
            inv_u := hinv
            inv_v := h.inv_v
            coprime := h.coprime.coprime_dvd_left (Nat.div_dvd_of_dvd (Nat.dvd_of_mod_eq_zero hxe)) }
        rw [if_pos ⟨hx0, hxe⟩, exec_bind_of_ok (bnRShift_one x), bind_of_ok hrun]
        exact ih _ _ _ _ (by omega) hnext
      · rw [if_neg (fun he => hxe he.2)]
        by_cases hye : y % 2 = 0
        · obtain ⟨v', hrun, hv', hinv⟩ := halfMod_inv (q := q) hodd hc h.v_lt hy0 (by omega) hye
            h.inv_v
          have hnext : MontState m a x (y / 2) u v' :=
            { x_pos := hx0
              y_pos := by omega
              x_le := hxm
              y_le := by omega
              u_lt := h.u_lt
              v_lt := hv'
              inv_u := h.inv_u
              inv_v := hinv
              coprime :=
                h.coprime.coprime_dvd_right (Nat.div_dvd_of_dvd (Nat.dvd_of_mod_eq_zero hye)) }
          rw [if_pos ⟨hy0, hye⟩, exec_bind_of_ok (bnRShift_one y), exec_bind_of_ok hrun]
          exact ih _ _ _ _ (by omega) hnext
        · rw [if_neg (fun he => hye he.2)]
          by_cases hlt : y < x
          · obtain ⟨u', hrun, hu', hinv⟩ := subHalfMod_inv (k := c) (q := q) hodd hd h.u_lt h.v_lt
              hlt (by omega) (by omega) h.inv_u h.inv_v
            have hcop : Nat.Coprime ((x - y) / 2) y :=
              Nat.Coprime.coprime_dvd_left (Nat.div_dvd_of_dvd (Nat.dvd_of_mod_eq_zero (by omega)))
                ((Nat.coprime_sub_self_left (Nat.le_of_lt hlt)).mpr h.coprime)
            have hnext : MontState m a ((x - y) / 2) y u' v :=
              { x_pos := by omega
                y_pos := hy0
                x_le := by omega
                y_le := hym
                u_lt := hu'
                v_lt := h.v_lt
                inv_u := hinv
                inv_v := h.inv_v
                coprime := hcop }
            rw [if_pos (Nat.compare_eq_gt.mpr hlt),
              exec_bind_of_ok (bnSub_of_le (Nat.le_of_lt hlt) (by omega)),
              exec_bind_of_ok (bnRShift_one _), bind_of_ok hrun]
            exact ih _ _ _ _ (by omega) hnext
          · obtain ⟨v', hrun, hv', hinv⟩ := subHalfMod_inv (k := d) (q := q) hodd hc h.v_lt h.u_lt
              (show x < y by omega) (by omega) (by omega) h.inv_v h.inv_u
            have hcop : Nat.Coprime x ((y - x) / 2) :=
              Nat.Coprime.coprime_dvd_right
                (Nat.div_dvd_of_dvd (Nat.dvd_of_mod_eq_zero (by omega)))
                ((Nat.coprime_sub_self_right (show x ≤ y by omega)).mpr h.coprime)
            have hnext : MontState m a x ((y - x) / 2) u v' :=
              { x_pos := hx0
                y_pos := by omega
                x_le := hxm
                y_le := by omega
                u_lt := h.u_lt
                v_lt := hv'
                inv_u := h.inv_u
                inv_v := hinv
                coprime := hcop }
            have hngt : ¬compare x y = .gt := fun hgt => hlt (Nat.compare_eq_gt.mp hgt)
            rw [if_neg hngt, exec_bind_of_ok (bnSub_of_le (show x ≤ y by omega) (by omega)),
              exec_bind_of_ok (bnRShift_one _), bind_of_ok (get_apply _), exec_bind_of_ok hrun]
            exact ih _ _ _ _ (by omega) hnext

/-- `bn_mod_inv_mont` up to the assignment of its result. -/
theorem bnModInvMont_run (J : Junk) (hodd : m % 2 = 1) (hdig : limbCount 64 m ≤ 28) (ha0 : a ≠ 0)
    (ha : a < m) (hcop : Nat.Coprime a m) :
    ∃ r, r < m ∧ (r : ZMod m) * a = 1 ∧
      bnModInvMont J (.val ⟨q, m⟩) (⟨c, a⟩ : Num) =
        bnAssign (.val ⟨1 + limbCount 64 m, r⟩) ⟨c, a⟩ := by
  have hm1 : 1 < m := by omega
  have hm := lt_loopFuel (show 64 * 28 + 1 ≤ 8192 by decide)
    (show a + m < 2 ^ (64 * 28 + 1) by
      have := lt_cap_of_limbCount_le hdig
      rw [Nat.pow_succ]
      omega)
  have hla := limbCount_mono (w := 64) (by decide) (Nat.le_of_lt ha)
  have hL : limbCount 64 m ≤ 4 + limbCount 64 m := by omega
  have hstate : MontState m a a m 1 0 :=
    { x_pos := ha0
      y_pos := by omega
      x_le := Nat.le_of_lt ha
      y_le := le_rfl
      u_lt := hm1
      v_lt := by omega
      inv_u := by rw [Nat.cast_one, one_mul]
      inv_v := by rw [Nat.cast_zero, zero_mul, ZMod.natCast_self]
      coprime := hcop }
  obtain ⟨r, hloop, hr, hinv⟩ := divMontLoop_eq (q := q) hodd
    (show limbCount 64 m < 4 + limbCount 64 m by omega)
    (show limbCount 64 m < 1 + limbCount 64 m by omega) loopFuel a m 1 0 hm hstate
  refine ⟨r, hr, hinv, ?_⟩
  have hbad : ¬invArgsBad (⟨1 + limbCount 64 m, 1⟩ : Num) ⟨q, m⟩ = true := by
    rw [invArgsBad_eq one_ne_zero hm1]
    decide
  have hbits : invBits (⟨1 + limbCount 64 m, 1⟩ : Num)
      ((Arg.val ⟨q, m⟩).get ⟨1 + limbCount 64 m, 1⟩) = (4 + limbCount 64 m) * 64 := invBits_eq hm1
  have hinit := bnInit_mul (show 4 + limbCount 64 m ≠ 0 by omega) (by omega)
  have hdiv : bnModDivMont (J 1) (.val ⟨c, a⟩) (.val ⟨q, m⟩) (⟨1 + limbCount 64 m, 1⟩ : Num) =
      .ok () ⟨1 + limbCount 64 m, r⟩ := by
    rw [bnModDivMont, bind_apply, get_apply, fold_ok]
    refine (ite_apply_neg hbad).trans ?_
    rw [hbits, exec_bind_of_ok (hinit _), exec_bind_of_ok (hinit _), exec_bind_of_ok (hinit _),
      Arg.get_val, exec_bind_of_ok (bnAssign_val (hla.trans hL)), Arg.get_val,
      exec_bind_of_ok (bnAssign_val hL), hloop]
  have hmax : (1 + max (digits (⟨c, a⟩ : Num)) (digits ((Arg.val ⟨q, m⟩).get (⟨c, a⟩ : Num)))) * 64 =
      (1 + limbCount 64 m) * 64 := by
    rw [Arg.get_val, digits_eq, digits_eq, Nat.max_eq_right hla]
  rw [bnModInvMont, bind_apply, get_apply, fold_ok, hmax,
    exec_bind_of_ok (bnInit_mul (show 1 + limbCount 64 m ≠ 0 by omega) (by omega) _),
    exec_bind_of_ok (bnAssignDigit_one (by omega) _), Arg.get_val, exec_bind_of_ok hdiv]

end BigNum.ByValue
