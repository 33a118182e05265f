import Liblcb.BigNum.DivBounds
import Liblcb.BigNum.NumMod
import Liblcb.BigNum.ModHom
import Mathlib.Data.Nat.Sqrt

/-!
# The integer square root

`bn_sqrt1` finds the root bit by bit.  It starts from the power of two above the number, whatever
the parity of its exponent; from an odd power it finds twice the root of half the number.
-/

namespace BigNum

open Limbs StateErr BnOps

section

variable {B : Type} [BnOps B] {σ : Type}

/-- `bn_clz`; without digits it reads `num[-1]`. -/
def bnClz (b : B) : EStateM Err σ Nat :=
  if digits b = 0 then throw .undef
  else pure (64 * (count b - digits b) + bnDigitClz ((sig b).getD (digits b - 1) 0))

/-- The first loop of `bn_sqrt1`. -/
def sqrtShiftLoop : Nat → B → BnM B B
  | 0, _ => throw .noReturn
  | fuel + 1, bit => do
    let bn ← get
    if bnCmp bit bn = .gt then do
      let bit ← exec bit (bnRShift 2)
      sqrtShiftLoop fuel bit
    else pure bit

/-- The second loop of `bn_sqrt1`; the result is `res`. -/
def sqrtLoop : Nat → (res bit tmp : B) → BnM B B
  | 0, _, _, _ => throw .noReturn
  | fuel + 1, res, bit, tmp =>
    if bnIsZero bit then pure res
    else do
      let tmp ← exec tmp (bnAssign (.val res))
      let tmp ← exec tmp (bnAdd (.val bit))
      let res ← exec res (bnRShift 1)
      let bn ← get
      if bnCmp bn tmp ≠ .lt then do
        let _ ← bnSub (.val tmp)
        let res ← exec res (bnAdd (.val bit))
        let bit ← exec bit (bnRShift 2)
        sqrtLoop fuel res bit tmp
      else do
        let bit ← exec bit (bnRShift 2)
        sqrtLoop fuel res bit tmp

/-- `bn_sqrt1`, the `bn_sqrt` in use. -/
def bnSqrt1 (J : Junk) : BnM B Unit := do
  let bn ← get
  let bits := count bn * 64
  let res ← exec (uninit (J 0)) (bnInit bits)
  let bit ← exec (uninit (J 1)) (bnInit bits)
  let tmp ← exec (uninit (J 2)) (bnInit bits)
  let clz ← bnClz bn
  let bit ← exec bit (bnAssign2exp (bits - clz))
  let bit ← sqrtShiftLoop loopFuel bit
  let res ← sqrtLoop loopFuel res bit tmp
  bnAssign (.val res)

end

/-! ## Maps of numbers -/

section

variable {B B' : Type} [BnOps B] [BnOps B'] (h : BnHom B B')

@[simp] theorem bnClz_hom {σ τ : Type} (φ : σ → τ) (b : B) (s : σ) :
    bnClz (h b) (φ s) = mapRes φ id (bnClz b s) := by
  simp [bnClz]

@[simp] theorem sqrtShiftLoop_hom (fuel : Nat) (bit s : B) :
    sqrtShiftLoop fuel (h bit) (h s) = mapRes h h (sqrtShiftLoop fuel bit s) := by
  induction fuel generalizing bit s with
  | zero => simp [sqrtShiftLoop]
  | succ fuel ih => simp [sqrtShiftLoop, ih]

@[simp] theorem sqrtLoop_hom (fuel : Nat) (res bit tmp s : B) :
    sqrtLoop fuel (h res) (h bit) (h tmp) (h s) = mapRes h h (sqrtLoop fuel res bit tmp s) := by
  induction fuel generalizing res bit tmp s with
  | zero => simp [sqrtLoop]
  | succ fuel ih => simp [sqrtLoop, ih]

theorem bnSqrt1_hom (J : Junk) (s : B) :
    bnSqrt1 (h.junk J) (h s) = mapRes h id (bnSqrt1 J s) := by
  simp [bnSqrt1, bnClz_hom h h.toFun]

end

theorem bnSqrt1_refines (J : Junk) : Refines (bnSqrt1 J) (bnSqrt1 J) :=
  refines_of_hom (bnSqrt1_hom bnHom J) (bnSqrt1_hom absHom J)

/-! ## What the loops find -/

namespace ByValue

variable {c e k n r : Nat}

theorem bnRShift_two (a : Nat) : bnRShift 2 (⟨c, a⟩ : Num) = .ok () ⟨c, a / 4⟩ :=
  bnRShift_val (by decide) a

theorem sqrtShiftLoop_eq {bit : Nat} (hlo : bit ≤ 2 * n) (hhi : n < bit) (fuel : Nat) :
    sqrtShiftLoop (fuel + 2) (⟨c, bit⟩ : Num) ⟨c, n⟩ = .ok ⟨c, bit / 4⟩ ⟨c, n⟩ := by
  have hcmp : ¬compare (bit / 4) n = .gt := by
    rw [Nat.compare_eq_gt]
    omega
  rw [sqrtShiftLoop, bind_of_ok (get_apply _), ite_apply_pos (by
      rw [bnCmp_eq]
      exact Nat.compare_eq_gt.mpr hhi), exec_bind_of_ok (bnRShift_two bit), sqrtShiftLoop,
    bind_of_ok (get_apply _), ite_apply_neg (by rwa [bnCmp_eq]), pure_apply]

/-- `r` is the root of `n / e` up to the bits below `2 ^ k`, with room for the squares. -/
structure RootSoFar (c e k n r : Nat) : Prop where
  le : e * r ^ 2 ≤ n
  lt : n < e * (r + 2 ^ k) ^ 2
  room : e * (r + 2 ^ k) ^ 2 < 2 ^ (64 * c)

/-- The root with the bit `2 ^ k` decided. -/
def rootStep (e k n r : Nat) : Nat := if e * (r + 2 ^ k) ^ 2 ≤ n then r + 2 ^ k else r

theorem RootSoFar.step (h : RootSoFar c e (k + 1) n r) : RootSoFar c e k n (rootStep e k n r) := by
  obtain ⟨hle, hlt, hroom⟩ := h
  have hpos := Nat.two_pow_pos k
  have htwo : r + 2 ^ k + 2 ^ k = r + 2 ^ (k + 1) := by rw [Nat.pow_succ]; omega
  have hmono : e * (r + 2 ^ k) ^ 2 ≤ e * (r + 2 ^ (k + 1)) ^ 2 :=
    Nat.mul_le_mul_left _ (Nat.pow_le_pow_left (by omega) 2)
  unfold rootStep
  split
  next hbit => exact ⟨hbit, by rwa [htwo], by rwa [htwo]⟩
  next hbit => exact ⟨hle, by omega, hmono.trans_lt hroom⟩

/-- One round of the second loop decides one bit. -/
theorem sqrtLoop_step (he : e ≠ 0) (h : RootSoFar c e (k + 1) n r) (fuel t : Nat) :
    ∃ t', sqrtLoop (fuel + 1) (⟨c, e * r * 2 ^ (k + 1)⟩ : Num) ⟨c, e * 4 ^ k⟩ ⟨c, t⟩
        ⟨c, n - e * r ^ 2⟩ =
      sqrtLoop fuel ⟨c, e * rootStep e k n r * 2 ^ k⟩ ⟨c, e * 4 ^ k / 4⟩ ⟨c, t'⟩
        ⟨c, n - e * rootStep e k n r ^ 2⟩ := by
  obtain ⟨hle, hlt, hroom⟩ := h
  have hfour : (4 : Nat) ^ k = 2 ^ k * 2 ^ k := by
    rw [← Nat.mul_pow]
  -- the three products all numbers of the round are sums of
  have hres : e * r * 2 ^ (k + 1) = 2 * (e * r * 2 ^ k) := by rw [Nat.pow_succ]; ring
  have hbit : e * 4 ^ k = e * 2 ^ k * 2 ^ k := by rw [hfour]; ring
  have hsq : e * (r + 2 ^ k) ^ 2 = e * r ^ 2 + 2 * (e * r * 2 ^ k) + e * 2 ^ k * 2 ^ k := by ring
  have hsq' : e * (r + 2 ^ (k + 1)) ^ 2 =
      e * r ^ 2 + 4 * (e * r * 2 ^ k) + 4 * (e * 2 ^ k * 2 ^ k) := by
    rw [Nat.pow_succ]
    ring
  have hsum : e * (r + 2 ^ k) * 2 ^ k = e * r * 2 ^ k + e * 2 ^ k * 2 ^ k := by ring
  have hbit0 : e * 2 ^ k * 2 ^ k ≠ 0 := by positivity
  rw [hsq'] at hlt hroom
  rw [hres, hbit, rootStep, hsq]
  generalize hX : e * r ^ 2 = X at *
  generalize hY : e * r * 2 ^ k = Y at *
  generalize hZ : e * 2 ^ k * 2 ^ k = Z at *
  have hfit : ∀ z, z ≤ X + 4 * Y + 4 * Z → limbCount 64 z ≤ c :=
    fun z hz => (limbCount_le_iff (by decide) _ _).mpr (by omega)
  refine ⟨2 * Y + Z, ?_⟩
  have hzero : ¬bnIsZero (⟨c, Z⟩ : Num) = true := by simpa using hbit0
  have hhalf : 2 * Y / 2 = Y := Nat.mul_div_cancel_left _ (by decide)
  rw [sqrtLoop, if_neg hzero, exec_bind_of_ok (bnAssign_val (hfit _ (by omega))),
    exec_bind_of_ok (bnAdd_val (hfit _ (by omega))), exec_bind_of_ok (bnRShift_one _),
    bind_of_ok (get_apply _), Nat.mod_eq_of_lt (show 2 * Y + Z < 2 ^ (64 * c) by omega), hhalf]
  by_cases hbit : X + 2 * Y + Z ≤ n
  · have hcmp : bnCmp (⟨c, n - X⟩ : Num) ⟨c, 2 * Y + Z⟩ ≠ .lt := by
      rw [bnCmp_eq]
      intro hbelow
      have hbelow : n - X < 2 * Y + Z := Nat.compare_eq_lt.mp hbelow
      omega
    rw [ite_apply_pos hcmp, if_pos hbit, bind_of_ok (bnSub_of_le (by omega) (by omega)),
      exec_bind_of_ok (bnAdd_val (hfit _ (by omega))), exec_bind_of_ok (bnRShift_two _),
      Nat.mod_eq_of_lt (show Y + Z < 2 ^ (64 * c) by omega), hsum, hsq,
      show n - X - (2 * Y + Z) = n - (X + 2 * Y + Z) by omega]
  · have hcmp : ¬bnCmp (⟨c, n - X⟩ : Num) ⟨c, 2 * Y + Z⟩ ≠ .lt := by
      have hbelow : n - X < 2 * Y + Z := by omega
      rw [bnCmp_eq]
      exact fun hne => hne (Nat.compare_eq_lt.mpr hbelow)
    rw [ite_apply_neg hcmp, if_neg hbit, exec_bind_of_ok (bnRShift_two _), hY, hX]

theorem sqrtLoop_eq (he : e = 1 ∨ e = 2) (h : RootSoFar c e (k + 1) n r) (fuel t : Nat)
    (hfuel : k + 1 < fuel) :
    ∃ r' s', sqrtLoop fuel (⟨c, e * r * 2 ^ (k + 1)⟩ : Num) ⟨c, e * 4 ^ k⟩ ⟨c, t⟩
        ⟨c, n - e * r ^ 2⟩ = .ok ⟨c, e * r'⟩ s' ∧ s'.count = c ∧ RootSoFar c e 0 n r' := by
  have he0 : e ≠ 0 := by omega
  induction k generalizing r fuel t with
  | zero =>
    obtain ⟨fuel, rfl⟩ : ∃ f, fuel = f + 2 := ⟨fuel - 2, by omega⟩
    obtain ⟨t', hstep⟩ := sqrtLoop_step he0 h (fuel + 1) t
    have hdone : e * 4 ^ 0 / 4 = 0 := by
      rw [Nat.pow_zero, Nat.mul_one]
      omega
    refine ⟨rootStep e 0 n r, ⟨c, n - e * rootStep e 0 n r ^ 2⟩, ?_, rfl, h.step⟩
    rw [hstep, hdone, sqrtLoop, if_pos (by simp), pure_apply, Nat.pow_zero, Nat.mul_one]
  | succ k ih =>
    obtain ⟨fuel, rfl⟩ : ∃ f, fuel = f + 1 := ⟨fuel - 1, by omega⟩
    obtain ⟨t', hstep⟩ := sqrtLoop_step he0 h fuel t
    have hnext : e * 4 ^ (k + 1) / 4 = e * 4 ^ k := by
      rw [Nat.pow_succ, ← Nat.mul_assoc, Nat.mul_div_cancel _ (by decide)]
    rw [hstep, hnext]
    exact ih h.step fuel t' (by omega)

theorem two_pow_le_of_bitCount (h0 : n ≠ 0) : 2 ^ bitCount n ≤ 2 * n ∧ n < 2 ^ bitCount n := by
  have hlo := Nat.log2_self_le h0
  have hhi := @Nat.lt_log2_self n
  rw [bitCount, if_neg h0]
  rw [Nat.pow_succ] at hhi ⊢
  omega

theorem bnClz_eq {σ : Type} (h0 : n ≠ 0) (s : σ) :
    ∃ z, bnClz (⟨c, n⟩ : Num) s = .ok z s ∧ (limbCount 64 n ≤ c → c * 64 - z = bitCount n) := by
  have hbits := bnCalcBits_eq ⟨c, n⟩
  have hL : ¬digits (⟨c, n⟩ : Num) = 0 := by
    rw [digits_eq]
    exact fun h => h0 (limbCount_eq_zero.mp h)
  rw [bnCalcBits, if_neg hL, digits_eq] at hbits
  refine ⟨_, (ite_apply_neg hL).trans (pure_apply _ _), fun hfit => ?_⟩
  rw [digits_eq, show count (⟨c, n⟩ : Num) = c from rfl]
  simp only at hbits ⊢
  omega

theorem bnAssign2exp_eq {bit x : Nat} (hbit : bit < 64 * c) :
    bnAssign2exp bit (⟨c, x⟩ : Num) = .ok () ⟨c, 2 ^ bit⟩ := by
  have hset : bnBitSet bit true (⟨c, 0⟩ : Num) = .ok () ⟨c, 2 ^ bit⟩ := by
    refine (if_neg (show ¬c ≤ bit / 64 by omega)).trans ?_
    rw [if_pos rfl, Nat.zero_or]
  rw [bnAssign2exp, bind_of_ok (show bnAssignZero (⟨c, x⟩ : Num) = .ok () ⟨c, 0⟩ from rfl), hset]

/-- What `bn_sqrt1` takes for the root. -/
def sqrtFound (n : Nat) : Nat :=
  if bitCount n % 2 = 0 then Nat.sqrt n else 2 * Nat.sqrt (n / 2)

theorem RootSoFar.eq_sqrt (he : 0 < e) (h : RootSoFar c e 0 n r) : r = Nat.sqrt (n / e) := by
  rw [Nat.eq_sqrt, Nat.le_div_iff_mul_le he, Nat.div_lt_iff_lt_mul he]
  have hle := h.le
  have hlt := h.lt
  rw [Nat.pow_zero] at hlt
  rw [Nat.pow_two] at hle hlt
  rw [Nat.mul_comm _ e, Nat.mul_comm _ e]
  exact ⟨hle, hlt⟩

theorem sqrtLoop_start (he : e = 1 ∨ e = 2) (hbits : bitCount n < 64 * c)
    (hstart : 2 ^ bitCount n = e * 4 ^ (k + 1)) (h0 : n ≠ 0) (fuel t : Nat) (hfuel : k + 1 < fuel) :
    ∃ s', sqrtLoop fuel (⟨c, 0⟩ : Num) ⟨c, 2 ^ bitCount n / 4⟩ ⟨c, t⟩ ⟨c, n⟩ =
      .ok ⟨c, e * Nat.sqrt (n / e)⟩ s' ∧ s'.count = c ∧ limbCount 64 (e * Nat.sqrt (n / e)) ≤ c := by
  have hpow : e * (0 + 2 ^ (k + 1)) ^ 2 = 2 ^ bitCount n := by
    rw [hstart, Nat.zero_add, ← Nat.pow_mul, Nat.mul_comm (k + 1), Nat.pow_mul]
  have hroot : RootSoFar c e (k + 1) n 0 :=
    { le := by simp
      lt := hpow ▸ (two_pow_le_of_bitCount h0).2
      room := hpow ▸ Nat.pow_lt_pow_right (by decide) hbits }
  obtain ⟨r, s', hrun, hcount, hr⟩ := sqrtLoop_eq he hroot fuel t hfuel
  have hreq := hr.eq_sqrt (by omega)
  have hbit : 2 ^ bitCount n / 4 = e * 4 ^ k := by
    rw [hstart, Nat.pow_succ, ← Nat.mul_assoc, Nat.mul_div_cancel _ (by decide)]
  have hroom : e * r < 2 ^ (64 * c) := by
    have hself : e * r ≤ e * (r + 2 ^ 0) ^ 2 := by
      apply Nat.mul_le_mul_left
      rw [Nat.pow_zero, Nat.pow_two]
      exact (Nat.le_succ r).trans (Nat.le_mul_self _)
    exact hself.trans_lt hr.room
  rw [Nat.mul_zero, Nat.zero_mul, Nat.zero_pow (by decide), Nat.mul_zero, Nat.sub_zero] at hrun
  rw [hbit, ← hreq]
  exact ⟨s', hrun, hcount, (limbCount_le_iff (by decide) _ _).mpr hroom⟩

theorem bnSqrt1_eq (J : Junk) (h0 : n ≠ 0) (hbits : bitCount n < 64 * c) (hc : c ≤ 32) :
    bnSqrt1 J (⟨c, n⟩ : Num) = .ok () ⟨c, sqrtFound n⟩ := by
  have hpos := two_pow_le_of_bitCount h0
  have hfit : limbCount 64 n ≤ c := by
    rw [limbCount_le_iff (by decide)]
    exact hpos.2.trans_le (Nat.pow_le_pow_right (by decide) (Nat.le_of_lt hbits))
  have hfuel : 2048 + 2 < loopFuel := lt_loopFuel (show 12 ≤ 8192 by decide) (by decide)
  obtain ⟨fuel, hfuel'⟩ : ∃ f, loopFuel = f + 2 := ⟨loopFuel - 2, by omega⟩
  obtain ⟨z, hclz, hexp⟩ := bnClz_eq (c := c) h0 (⟨c, n⟩ : Num)
  have hshift := sqrtShiftLoop_eq (c := c) hpos.1 hpos.2 fuel
  rw [← hfuel'] at hshift
  have hloop : ∃ s', sqrtLoop loopFuel (⟨c, 0⟩ : Num) ⟨c, 2 ^ bitCount n / 4⟩ ⟨c, 0⟩ ⟨c, n⟩ =
      .ok ⟨c, sqrtFound n⟩ s' ∧ s'.count = c ∧ limbCount 64 (sqrtFound n) ≤ c := by
    unfold sqrtFound
    have hb0 : bitCount n ≠ 0 := by
      rw [bitCount, if_neg h0]
      exact Nat.succ_ne_zero _
    by_cases heven : bitCount n % 2 = 0
    · obtain ⟨k, hk⟩ : ∃ k, bitCount n = 2 * (k + 1) := ⟨bitCount n / 2 - 1, by omega⟩
      have hstart : 2 ^ bitCount n = 1 * 4 ^ (k + 1) := by
        rw [hk, Nat.pow_mul, Nat.one_mul]
      rw [if_pos heven]
      simpa using sqrtLoop_start (Or.inl rfl) hbits hstart h0 loopFuel 0 (by omega)
    · rw [if_neg heven]
      by_cases hone : bitCount n = 1
      · -- the starting bit of the number one is shifted out
        have hn : n = 1 := by
          have := hpos.1
          have := hpos.2
          rw [hone] at *
          omega
        obtain ⟨f, hf⟩ : ∃ f, loopFuel = f + 1 := ⟨loopFuel - 1, by omega⟩
        rw [hone, hf, hn]
        exact ⟨⟨c, 1⟩, rfl, rfl, Nat.zero_le _⟩
      · obtain ⟨k, hk⟩ : ∃ k, bitCount n = 2 * (k + 1) + 1 := ⟨bitCount n / 2 - 1, by omega⟩
        have hstart : 2 ^ bitCount n = 2 * 4 ^ (k + 1) := by
          rw [hk, Nat.pow_succ, Nat.pow_mul, Nat.mul_comm]
        exact sqrtLoop_start (Or.inr rfl) hbits hstart h0 loopFuel 0 (by omega)
  obtain ⟨s', hrun, hcount, hres⟩ := hloop
  have hinit := bnInit_mul (show c ≠ 0 by omega) hc
  rw [bnSqrt1, bind_of_ok (get_apply _), show count (⟨c, n⟩ : Num) = c from rfl,
    exec_bind_of_ok (hinit _), exec_bind_of_ok (hinit _), exec_bind_of_ok (hinit _),
    bind_of_ok hclz, hexp hfit, exec_bind_of_ok (bnAssign2exp_eq hbits), bind_of_ok hshift,
    bind_of_ok hrun, show s' = ⟨c, s'.val⟩ by rw [← hcount], bnAssign_val hres]

theorem bnSqrt1_zero (J : Junk) (hc0 : c ≠ 0) (hc : c ≤ 32) :
    bnSqrt1 J (⟨c, 0⟩ : Num) = .error .undef ⟨c, 0⟩ := by
  have hinit := bnInit_mul hc0 hc
  rw [bnSqrt1, bind_of_ok (get_apply _), show count (⟨c, 0⟩ : Num) = c from rfl,
    exec_bind_of_ok (hinit _), exec_bind_of_ok (hinit _), exec_bind_of_ok (hinit _),
    bind_of_error (show bnClz (⟨c, 0⟩ : Num) (⟨c, 0⟩ : Num) = .error .undef ⟨c, 0⟩ from rfl)]

end ByValue

namespace Bn

/-- `bn_sqrt1` ends and leaves the root. -/
def SqrtExact (J : Junk) (b : Bn) : Prop :=
  ∃ t, bnSqrt1 J b = .ok () t ∧ t.value ^ 2 ≤ b.value ∧ b.value < (t.value + 1) ^ 2

theorem two_mul_sqrt_half {n : Nat} (h0 : n ≠ 0) :
    2 * Nat.sqrt (n / 2) = Nat.sqrt n ↔ n ∈ [4, 5, 6, 7, 16, 17] := by
  simp only [List.mem_cons, List.not_mem_nil, or_false]
  generalize hk : Nat.sqrt (n / 2) = k
  obtain ⟨hle, hlt⟩ := Nat.eq_sqrt.mp hk.symm
  rw [Nat.eq_sqrt]
  constructor
  · rintro ⟨hle', hlt'⟩
    -- `4 * k ^ 2 ≤ n < 2 * (k + 1) ^ 2` leaves three values of `k`
    have hk2 : k ≤ 2 := by
      by_contra hgt
      have hsq : k * 3 ≤ k * k := Nat.mul_le_mul_left k (by omega)
      have hexp : (k + 1) * (k + 1) = k * k + 2 * k + 1 := by ring
      have hexp' : 2 * k * (2 * k) = 4 * (k * k) := by ring
      omega
    interval_cases k <;> omega
  · intro hn
    have hk2 : k ≤ 2 := by
      by_contra hgt
      have hsq : 3 * 3 ≤ k * k := Nat.mul_le_mul (by omega) (by omega)
      omega
    interval_cases k <;> omega

/-- It does so for a number that is not zero and has an even number of bits, and for six small
numbers with an odd one. -/
theorem sqrtExact_iff (J : Junk) {b : Bn} (hb : b.WF) (hbits : bitCount b.value < 64 * b.count) :
    SqrtExact J b ↔ b.value ≠ 0 ∧
      (bitCount b.value % 2 = 0 ∨ b.value ∈ [4, 5, 6, 7, 16, 17]) := by
  have href := bnSqrt1_refines J
  have hc0 : b.count ≠ 0 := by omega
  by_cases h0 : b.value = 0
  · -- the run stops at `num[-1]`
    have hrun := (href b hb).1
    rw [show b.abs = ⟨b.count, 0⟩ by rw [← h0]; rfl, ByValue.bnSqrt1_zero J hc0 hb.count_le] at hrun
    refine iff_of_false ?_ fun h => h.1 h0
    rintro ⟨t, ht, -⟩
    rw [ht] at hrun
    cases hrun
  · obtain ⟨t, ht, habs, -⟩ := href.ok hb (ByValue.bnSqrt1_eq J h0 hbits hb.count_le)
    have hval : t.value = ByValue.sqrtFound b.value := congrArg Num.val habs
    have hroot : SqrtExact J b ↔ ByValue.sqrtFound b.value = Nat.sqrt b.value := by
      rw [Nat.eq_sqrt, ← Nat.pow_two, ← Nat.pow_two, ← hval]
      constructor
      · rintro ⟨t', ht', hsq⟩
        rw [ht] at ht'
        cases ht'
        exact hsq
      · intro hsq
        exact ⟨t, ht, hsq⟩
    rw [hroot, ByValue.sqrtFound, ← two_mul_sqrt_half h0]
    by_cases heven : bitCount b.value % 2 = 0
    · simp [heven, h0]
    · simp [heven, h0]

/-- The root of 9. -/
theorem sqrtExact_nine : SqrtExact blank (oneDigit 1 9) :=
  (sqrtExact_iff blank (oneDigit_wf (by decide) (by decide) (by decide)) (by decide)).mpr
    ⟨by decide, Or.inl (by decide)⟩

/-- 24 has five bits; twice the root of 12 is 6. -/
theorem not_forall_sqrtExact :
    ¬ ∀ (J : Junk) (b : Bn), b.WF → bitCount b.value < 64 * b.count → SqrtExact J b := by
  intro h
  obtain ⟨t, ht, hsq, -⟩ := h blank (oneDigit 1 24)
    (oneDigit_wf (by decide) (by decide) (by decide)) (by decide)
  have hwrong : decide ((stateOf (bnSqrt1 blank (oneDigit 1 24))).value = 6) = true := by
    decide +kernel
  rw [ht, stateOf_ok, decide_eq_true_eq] at hwrong
  rw [hwrong] at hsq
  revert hsq
  decide

end Bn

end BigNum
