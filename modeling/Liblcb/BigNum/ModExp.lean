import Liblcb.BigNum.Inverses

/-!
# Modular exponentiation

`bn_mod_exp` and `bn_mod_exp_digit` with a base of any size.  Both leave the power whenever they
return 0, except that an exponent of one returns the base as it is.  For exponents that fit a digit
they take the same products in the same order; only one and three have branches of their own.
-/

namespace BigNum

open Limbs StateErr BnOps

namespace ByValue

variable {a c e k m q r : Nat}

/-! ## One product -/

theorem limbCount_mul_le (x y : Nat) :
    limbCount 64 (x * y) ≤ limbCount 64 x + limbCount 64 y := by
  rw [limbCount_le_iff (by decide), Nat.mul_add, Nat.pow_add]
  exact Nat.mul_lt_mul_of_lt_of_lt (lt_pow_limbCount (by decide) x) (lt_pow_limbCount (by decide) y)

theorem ModMultFits.of_le_square {x y z : Nat} (hz : ModMultFits c m z z) (hx : x ≤ z)
    (hy : y ≤ z) : ModMultFits c m x y := by
  by_cases hx0 : x = 0
  · exact Or.inl hx0
  have hz0 : z ≠ 0 := by omega
  obtain ⟨hroom, hfit⟩ := (hz.resolve_left hz0).resolve_left hz0
  have hle := Nat.mul_le_mul hx hy
  have hlimbs : limbCount 64 (x * y) ≤ limbCount 64 (z * z) := limbCount_mono (by decide) hle
  have hlx : limbCount 64 x ≤ limbCount 64 z := limbCount_mono (by decide) hx
  have hly : limbCount 64 y ≤ limbCount 64 z := limbCount_mono (by decide) hy
  have hcap := (limbCount_mul_le z z).trans hroom
  have hbits : bitCount (x * y) ≤ bitCount (z * z) := by
    rw [Bn.bitCount_lt_iff]
    exact hle.trans_lt ((Bn.bitCount_lt_iff _ _).mp le_rfl)
  refine Or.inr (Or.inr ⟨by omega, ?_⟩)
  unfold topClz at hfit ⊢
  omega

theorem ModMultFits.mixed {x y : Nat} (hx : ModMultFits c m x x) (hy : ModMultFits c m y y) :
    ModMultFits c m x y := by
  rcases Nat.le_total x y with hxy | hyx
  · exact hy.of_le_square hxy le_rfl
  · exact hx.of_le_square le_rfl hyx

/-! ## The loops -/

/-- The products of the round for bit `i` fit. -/
def RoundFits (c m e i base acc : Nat) : Prop :=
  (e / 2 ^ i % 2 = 1 → ModMultFits c m acc base) ∧ ModMultFits c m base base

/-- One round squares the base, and takes it into the power when the bit is set. -/
theorem expLoop_step (J : Junk) (hm : m ≠ 0) (n i base acc : Nat) :
    (RoundFits c m e i base acc →
      expLoop J (.val ⟨r, e⟩) (.val ⟨q, m⟩) (n + 1) i ⟨c, base⟩ (⟨c, acc⟩ : Num) =
        expLoop J (.val ⟨r, e⟩) (.val ⟨q, m⟩) n (i + 1) ⟨c, base * base % m⟩
          ⟨c, if e / 2 ^ i % 2 = 1 then acc * base % m else acc⟩) ∧
    (¬RoundFits c m e i base acc → ∃ t,
      expLoop J (.val ⟨r, e⟩) (.val ⟨q, m⟩) (n + 1) i ⟨c, base⟩ (⟨c, acc⟩ : Num) =
        .error .eoverflow t) := by
  have hset : bnIsBitSet ((Arg.val (⟨r, e⟩ : Num)).get ⟨c, acc⟩) i = true ↔
      e / 2 ^ i % 2 = 1 := by
    rw [bnIsBitSet_eq, Arg.get_val, Nat.testBit_eq_decide_div_mod_eq, decide_eq_true_eq]
  have honly : ∀ {act : BnM Num Unit} {s : Num}, e / 2 ^ i % 2 = 1 →
      onlyIf (bnIsBitSet ((Arg.val (⟨r, e⟩ : Num)).get ⟨c, acc⟩) i) act s = act s :=
    fun hodd => (onlyIf_apply _ _ _).trans (if_pos (hset.mpr hodd))
  have hskip : ∀ {act : BnM Num Unit} {s : Num}, ¬e / 2 ^ i % 2 = 1 →
      onlyIf (bnIsBitSet ((Arg.val (⟨r, e⟩ : Num)).get ⟨c, acc⟩) i) act s = .ok () s :=
    fun hodd => (onlyIf_apply _ _ _).trans (if_neg (hset.not.mpr hodd))
  rw [expLoop, bind_of_ok (get_apply _)]
  constructor
  · rintro ⟨hmult, hsquare⟩
    have hsq := bnModMult_of_fits (q := q) (J (2 * i + 1)) .self (y := base) hm rfl hsquare
    by_cases hodd : e / 2 ^ i % 2 = 1
    · rw [bind_of_ok ((honly hodd).trans (bnModMult_of_fits _ (.val ⟨c, base⟩) (y := base) hm rfl
        (hmult hodd))), bind_of_ok (get_apply _), if_pos hodd]
      exact exec_bind_of_ok hsq _ _
    · rw [bind_of_ok (hskip hodd), bind_of_ok (get_apply _), if_neg hodd]
      exact exec_bind_of_ok hsq _ _
  · intro hfits
    -- a product that fits leaves the error to the square
    have hrest : ∀ s : Num, ¬ModMultFits c m base base → ∃ t,
        (exec (⟨c, base⟩ : Num) (bnModMult (J (2 * i + 1)) .self (.val ⟨q, m⟩)) >>=
          expLoop J (.val ⟨r, e⟩) (.val ⟨q, m⟩) n (i + 1)) s = .error .eoverflow t := by
      intro s hsquare
      obtain ⟨t, herr⟩ := bnModMult_of_not_fits (q := q) (J (2 * i + 1)) .self (y := base) hm rfl
        hsquare
      exact ⟨s, by rw [bind_apply, exec_apply, herr]; rfl⟩
    by_cases hodd : e / 2 ^ i % 2 = 1
    · by_cases hmult : ModMultFits c m acc base
      · rw [bind_of_ok ((honly hodd).trans (bnModMult_of_fits _ (.val ⟨c, base⟩) (y := base) hm rfl
          hmult)), bind_of_ok (get_apply _)]
        exact hrest _ fun hsquare => hfits ⟨fun _ => hmult, hsquare⟩
      · obtain ⟨t, herr⟩ := bnModMult_of_not_fits (q := q) (J (2 * i)) (.val ⟨c, base⟩)
          (y := base) hm rfl hmult
        exact ⟨t, bind_of_error ((honly hodd).trans herr) _⟩
    · rw [bind_of_ok (hskip hodd), bind_of_ok (get_apply _)]
      exact hrest _ fun hsquare => hfits ⟨fun h => absurd h hodd, hsquare⟩

theorem expLoop_sound (J : Junk) (hm : m ≠ 0) (n i base acc : Nat) {t : Num}
    (he : e < 2 ^ (i + n)) (hacc : acc < m)
    (h : expLoop J (.val ⟨r, e⟩) (.val ⟨q, m⟩) n i ⟨c, base⟩ (⟨c, acc⟩ : Num) = .ok () t) :
    t = ⟨c, acc * base ^ (e / 2 ^ i) % m⟩ := by
  induction n generalizing i base acc with
  | zero =>
    rw [expLoop, pure_apply] at h
    injection h with _ h
    rw [← h, Nat.div_eq_of_lt (by simpa using he), Nat.pow_zero, Nat.mul_one,
      Nat.mod_eq_of_lt hacc]
  | succ n ih =>
    have hstep := expLoop_step (c := c) (e := e) (q := q) (r := r) J hm n i base acc
    by_cases hfits : RoundFits c m e i base acc
    · rw [hstep.1 hfits] at h
      have hacc' : (if e / 2 ^ i % 2 = 1 then acc * base % m else acc) < m := by
        split
        · exact Nat.mod_lt _ (Nat.pos_of_ne_zero hm)
        · exact hacc
      rw [← pow_step, Nat.div_div_eq_div_mul, ← Nat.pow_succ]
      exact ih (i + 1) _ _ (by rwa [Nat.add_right_comm]) hacc' h
    · obtain ⟨t', herr⟩ := hstep.2 hfits
      rw [herr] at h
      cases h

theorem expLoop_eq_digit (J J' : Junk) (n i fuel : Nat) (base s : Num)
    (hn : bitCount e = i + n) (hfuel : n ≤ fuel) :
    expLoop J (.val ⟨r, e⟩) (.val ⟨q, m⟩) n i base s =
      expDigitLoop J' (.val ⟨q, m⟩) fuel (e / 2 ^ i) base s := by
  induction n generalizing i fuel base s with
  | zero =>
    have h0 : e / 2 ^ i = 0 := Nat.div_eq_of_lt ((Bn.bitCount_lt_iff e i).mp (le_of_eq hn))
    rw [h0, expLoop]
    cases fuel with
    | zero => rfl
    | succ fuel => rw [expDigitLoop, if_pos rfl]
  | succ n ih =>
    obtain ⟨fuel, rfl⟩ : ∃ f, fuel = f + 1 := ⟨fuel - 1, by omega⟩
    have h0 : ¬e / 2 ^ i = 0 := by
      intro h0
      have hlt := (Nat.div_eq_zero_iff_lt (Nat.two_pow_pos i)).mp h0
      have := (Bn.bitCount_lt_iff e i).mpr hlt
      omega
    have hbit : e.testBit i = decide (e / 2 ^ i % 2 = 1) := Nat.testBit_eq_decide_div_mod_eq
    have hnext : ∀ base s : Num, expLoop J (.val ⟨r, e⟩) (.val ⟨q, m⟩) n (i + 1) base s =
        expDigitLoop J' (.val ⟨q, m⟩) fuel (e / 2 ^ i / 2) base s := by
      intro base s
      rw [ih (i + 1) fuel base s (by omega) (by omega), Nat.pow_succ, Nat.div_div_eq_div_mul]
    rw [expLoop, expDigitLoop, if_neg h0, bind_of_ok (get_apply _), bnIsBitSet_eq]
    simp only [Arg.get_val, hbit, decide_eq_true_eq, bind_apply, get_apply, fold_ok, exec_apply,
      hnext]
    rfl

/-! ## The shortcuts -/

theorem not_digits_one {v : Nat} (hv : v < 2 ^ 64) (he : e ≠ v ∨ v = 0) :
    ¬(digits (⟨r, e⟩ : Num) = 1 ∧ lowDigit (⟨r, e⟩ : Num) = BitVec.ofNat 64 v) := by
  intro h
  obtain ⟨heq, h0⟩ := (digits_one_of_eq hv).mp h
  exact he.elim (fun hne => hne heq) h0

theorem digits_small_iff : (digits (⟨c, a⟩ : Num) = 1 ∧
    (lowDigit (⟨c, a⟩ : Num) = 0 ∨ lowDigit (⟨c, a⟩ : Num) = 1)) ↔ a = 1 := by
  constructor
  · exact eq_one_of_digits
  · rintro rfl
    have h := (digits_one_of_eq (n := ⟨c, 1⟩) (v := 1) (by decide)).mpr ⟨rfl, by decide⟩
    exact ⟨h.1, Or.inr h.2⟩

theorem bnModExp_narrow (J : Junk) (h : c < q) :
    bnModExp J (.val ⟨r, e⟩) (.val ⟨q, m⟩) (⟨c, a⟩ : Num) = .error .eoverflow ⟨c, a⟩ :=
  ite_apply_pos h

theorem bnModExp_one (J : Junk) (h : q ≤ c) :
    bnModExp J (.val ⟨r, 1⟩) (.val ⟨q, m⟩) (⟨c, a⟩ : Num) = .ok () ⟨c, a⟩ := by
  refine (ite_apply_neg (not_lt.mpr h)).trans ?_
  refine (ite_apply_neg (not_digits_one (v := 0) (by decide) (Or.inr rfl))).trans ?_
  exact ite_apply_pos ((digits_one_of_eq (v := 1) (by decide)).mpr ⟨rfl, by decide⟩)

theorem bnModExp_two (J : Junk) (h : q ≤ c) :
    bnModExp J (.val ⟨r, 2⟩) (.val ⟨q, m⟩) (⟨c, a⟩ : Num) =
      bnModMult (J 0) .self (.val ⟨q, m⟩) ⟨c, a⟩ := by
  refine (ite_apply_neg (not_lt.mpr h)).trans ?_
  refine (ite_apply_neg (not_digits_one (v := 0) (by decide) (Or.inr rfl))).trans ?_
  refine (ite_apply_neg (not_digits_one (v := 1) (by decide) (Or.inl (by decide)))).trans ?_
  exact ite_apply_pos ((digits_one_of_eq (v := 2) (by decide)).mpr ⟨rfl, by decide⟩)

theorem bnModExp_other (J : Junk) (h : q ≤ c) (hq0 : q ≠ 0) (h1 : e ≠ 1) (h2 : e ≠ 2) :
    bnModExp J (.val ⟨r, e⟩) (.val ⟨q, m⟩) (⟨c, a⟩ : Num) =
      if c < limbCount 64 a * 2 then .error .eoverflow ⟨c, a⟩
      else if a = 1 then .ok () ⟨c, 1⟩
      else expLoop (J 2) (.val ⟨r, e⟩) (.val ⟨q, m⟩) (bitCount e) 0 ⟨c, a⟩ ⟨c, 1⟩ := by
  refine (ite_apply_neg (not_lt.mpr h)).trans ?_
  refine (ite_apply_neg (not_digits_one (v := 0) (by decide) (Or.inr rfl))).trans ?_
  refine (ite_apply_neg (not_digits_one (v := 1) (by decide) (Or.inl h1))).trans ?_
  refine (ite_apply_neg (not_digits_one (v := 2) (by decide) (Or.inl h2))).trans ?_
  have hdig : (count (⟨c, a⟩ : Num) < digits (⟨c, a⟩ : Num) * 2) = (c < limbCount 64 a * 2) := by
    rw [digits_eq]
    rfl
  simp only [hdig, digits_small_iff]
  by_cases hroom : c < limbCount 64 a * 2
  · rw [if_pos hroom, if_pos hroom, throw_apply]
  · rw [if_neg hroom, if_neg hroom]
    by_cases ha1 : a = 1
    · rw [if_pos ha1, if_pos ha1, pure_apply, ha1]
    · rw [if_neg ha1, if_neg ha1, exec_bind_of_ok (bnAssignInit_val _ _),
        bind_of_ok (bnAssignDigit_one (by omega) _), bind_of_ok (get_apply _)]
      simp only [Arg.get_val, bnCalcBits_eq]

theorem bnModExpDigit_narrow (J : Junk) (h : c < q ∨ c < limbCount 64 a * 2) :
    bnModExpDigit J e (.val ⟨q, m⟩) (⟨c, a⟩ : Num) = .error .eoverflow ⟨c, a⟩ :=
  ite_apply_pos (by rwa [digits_eq])

theorem bnModExpDigit_wide (J : Junk) (h : q ≤ c) (hroom : limbCount 64 a * 2 ≤ c) (hq0 : q ≠ 0) :
    bnModExpDigit J e (.val ⟨q, m⟩) (⟨c, a⟩ : Num) =
      if e = 0 then .ok () ⟨c, 1⟩
      else if e = 1 then .ok () ⟨c, a⟩
      else if e = 2 then bnModMult (J 0) .self (.val ⟨q, m⟩) ⟨c, a⟩
      else if e = 3 then (do
        let base ← exec (⟨c, a⟩ : Num) (bnModMult (J 2) (.val ⟨c, a⟩) (.val ⟨q, m⟩))
        bnModMult (J 3) (.val base) (.val ⟨q, m⟩) : BnM Num Unit) ⟨c, a⟩
      else if a = 1 then .ok () ⟨c, 1⟩
      else expDigitLoop (J 4) (.val ⟨q, m⟩) 64 e ⟨c, a⟩ ⟨c, 1⟩ := by
  have hnot : ¬(count (⟨c, a⟩ : Num) < count (⟨q, m⟩ : Num) ∨
      count (⟨c, a⟩ : Num) < digits (⟨c, a⟩ : Num) * 2) := by
    rw [digits_eq]
    show ¬(c < q ∨ c < limbCount 64 a * 2)
    omega
  refine (ite_apply_neg hnot).trans ?_
  simp only [StateErr.ite_apply, digits_small_iff, bnAssignDigit_one (show c ≠ 0 by omega),
    pure_apply, bind_apply, exec_apply, bnAssignInit_val, fold_ok, Arg.get_val]
  by_cases ha1 : a = 1
  · simp only [ha1]
  · simp only [if_neg ha1]

/-! ## Powers and agreement -/

theorem bnModExp_sound (J : Junk) {t : Num} (hm : 1 < m) (hq0 : q ≠ 0) (h1 : e ≠ 1)
    (h : bnModExp J (.val ⟨r, e⟩) (.val ⟨q, m⟩) (⟨c, a⟩ : Num) = .ok () t) :
    t = ⟨c, a ^ e % m⟩ := by
  by_cases hq : c < q
  · rw [bnModExp_narrow J hq] at h
    cases h
  have hq := not_lt.mp hq
  by_cases h2 : e = 2
  · subst h2
    rw [bnModExp_two J hq] at h
    rw [bnModMult_sound _ _ (by omega) h, Arg.get, Nat.pow_two]
  rw [bnModExp_other J hq hq0 h1 h2] at h
  by_cases hroom : c < limbCount 64 a * 2
  · rw [if_pos hroom] at h
    cases h
  rw [if_neg hroom] at h
  by_cases ha1 : a = 1
  · rw [if_pos ha1] at h
    injection h with _ h
    rw [← h, ha1, Nat.one_pow, Nat.mod_eq_of_lt hm]
  · rw [if_neg ha1] at h
    have he := (Bn.bitCount_lt_iff e _).mp le_rfl
    rw [expLoop_sound (J 2) (by omega) _ 0 a 1 (by rwa [Nat.zero_add]) hm h, Nat.one_mul,
      Nat.pow_zero, Nat.div_one]

theorem limbCount_le_of_bits {v : Nat} (h : bitCount v ≤ bitCount m) :
    limbCount 64 v ≤ limbCount 64 m := by
  rw [limbCount_le_iff (by decide)]
  exact (Bn.bitCount_lt_iff v _).mp (h.trans (Bn.bitCount_le_limbCount m))

theorem bitCount_le_of_lt {v : Nat} (h : v < m) : bitCount v ≤ bitCount m := by
  rw [Bn.bitCount_lt_iff]
  exact h.trans ((Bn.bitCount_lt_iff m _).mp le_rfl)

theorem modMultFits_of_bits {x y : Nat} (hx : bitCount x ≤ bitCount m)
    (hy : bitCount y ≤ bitCount m) (hc : 2 * limbCount 64 m ≤ c) : ModMultFits c m x y := by
  have hmb := Bn.bitCount_le_limbCount m
  have hbits : bitCount (x * y) ≤ 2 * bitCount m := by
    rw [Bn.bitCount_lt_iff, Nat.two_mul, Nat.pow_add]
    exact Nat.mul_lt_mul_of_lt_of_lt ((Bn.bitCount_lt_iff x _).mp hx)
      ((Bn.bitCount_lt_iff y _).mp hy)
  have hlx := limbCount_le_of_bits hx
  have hly := limbCount_le_of_bits hy
  refine Or.inr (Or.inr ⟨by omega, Or.inr ?_⟩)
  unfold topClz
  omega

theorem bnModExp_wide (J : Junk) (hm : 1 < m) (hq : q ≤ c) (hq0 : q ≠ 0)
    (hc : 2 * limbCount 64 m ≤ c) (ha : bitCount a ≤ bitCount m) :
    ∃ y, bnModExp J (.val ⟨r, e⟩) (.val ⟨q, m⟩) (⟨c, a⟩ : Num) = .ok () ⟨c, y⟩ ∧
      bitCount y ≤ bitCount m ∧ y ≡ a ^ e [MOD m] := by
  have hm0 : m ≠ 0 := by omega
  have hsquare := modMultFits_of_bits ha ha hc
  by_cases h1 : e = 1
  · subst h1
    refine ⟨a, bnModExp_one J hq, ha, ?_⟩
    rw [Nat.pow_one]
  by_cases h2 : e = 2
  · subst h2
    refine ⟨a * a % m, ?_, bitCount_le_of_lt (Nat.mod_lt _ (by omega)), ?_⟩
    · rw [bnModExp_two J hq, bnModMult_of_fits (y := a) _ .self hm0 rfl hsquare]
    · rw [Nat.pow_two]
      exact Nat.mod_modEq _ _
  have hroom : ¬c < limbCount 64 a * 2 := by
    have hla := limbCount_le_of_bits ha
    omega
  rw [bnModExp_other J hq hq0 h1 h2, if_neg hroom]
  by_cases ha1 : a = 1
  · refine ⟨1, if_pos ha1, bitCount_le_of_lt hm, ?_⟩
    rw [ha1, Nat.one_pow]
  rw [if_neg ha1]
  have he := (Bn.bitCount_lt_iff e _).mp le_rfl
  refine ⟨a ^ e % m, ?_, bitCount_le_of_lt (Nat.mod_lt _ (by omega)), Nat.mod_modEq _ _⟩
  cases hn : bitCount e with
  | zero =>
    rw [hn, Nat.pow_zero] at he
    rw [expLoop, pure_apply, show e = 0 by omega, Nat.pow_zero, Nat.mod_eq_of_lt hm]
  | succ n =>
    -- after the first round everything is reduced
    have hmult := modMultFits_of_bits (bitCount_le_of_lt hm) ha hc
    have hacc : (if e / 2 ^ 0 % 2 = 1 then 1 * a % m else 1) < m := by
      split
      · exact Nat.mod_lt _ (by omega)
      · exact hm
    rw [hn] at he
    rw [(expLoop_step (J 2) hm0 n 0 a 1).1 ⟨fun _ => hmult, hsquare⟩,
      expLoop_eq (J 2) hc n (0 + 1) _ _ (by rwa [Nat.zero_add, Nat.add_comm])
        (Nat.mod_lt _ (by omega)) hacc, Nat.zero_add, Nat.pow_one, Nat.pow_zero, Nat.div_one,
      pow_step, Nat.one_mul]

theorem bnModExp_eq_digit (J J' : Junk) (hq0 : q ≠ 0) (h1 : e ≠ 1) (h3 : e ≠ 3)
    (hfit : e < 2 ^ 64) :
    bnModExp J (.val ⟨r, e⟩) (.val ⟨q, m⟩) (⟨c, a⟩ : Num) =
      bnModExpDigit J' e (.val ⟨q, m⟩) ⟨c, a⟩ := by
  by_cases hq : c < q
  · rw [bnModExp_narrow J hq, bnModExpDigit_narrow J' (Or.inl hq)]
  have hq := not_lt.mp hq
  by_cases hroom : c < limbCount 64 a * 2
  · rw [bnModExpDigit_narrow J' (Or.inr hroom)]
    by_cases h2 : e = 2
    · -- the square of the second branch does not fit either
      have ha0 : a ≠ 0 := by
        rintro rfl
        simp at hroom
      have hmult : bnMult (J 0 0) .self (⟨c, a⟩ : Num) = .error .eoverflow ⟨c, a⟩ :=
        (if_neg (show ¬(a = 0 ∨ a = 0) by omega)).trans
          (if_pos (show c < limbCount 64 a + limbCount 64 a by omega))
      subst h2
      rw [bnModExp_two J hq, bnModMult, bind_of_error hmult]
    · rw [bnModExp_other J hq hq0 h1 h2, if_pos hroom]
  · rw [bnModExpDigit_wide J' hq (not_lt.mp hroom) hq0, if_neg h1, if_neg h3]
    by_cases h2 : e = 2
    · subst h2
      rw [if_neg (by decide), if_pos rfl, bnModExp_two J hq]
      rfl
    rw [bnModExp_other J hq hq0 h1 h2, if_neg hroom, if_neg h2]
    by_cases h0 : e = 0
    · subst h0
      rw [if_pos rfl]
      by_cases ha1 : a = 1
      · rw [if_pos ha1]
      · rw [if_neg ha1, show bitCount 0 = 0 from rfl, expLoop, pure_apply]
    · have hbits : bitCount e ≤ 64 := (Bn.bitCount_lt_iff e 64).mpr hfit
      rw [if_neg h0, expLoop_eq_digit (J 2) (J' 4) (bitCount e) 0 64 _ _ (Nat.zero_add _).symm
        hbits, Nat.pow_zero, Nat.div_one]

/-- `bn_mod_exp` squares the square of the base once more than `bn_mod_exp_digit` does for a
cube. -/
def CubeFits (c m a : Nat) : Prop :=
  ModMultFits c m a a → ModMultFits c m a (a * a % m) → ModMultFits c m (a * a % m) (a * a % m)

theorem bnModExpDigit_three (J : Junk) (hm : m ≠ 0) (hq : q ≤ c) (hq0 : q ≠ 0)
    (hroom : limbCount 64 a * 2 ≤ c) {x : Nat} :
    (∃ y, bnModExpDigit J 3 (.val ⟨q, m⟩) (⟨c, a⟩ : Num) = .ok () y ∧ y.val = x) ↔
      (ModMultFits c m a a ∧ ModMultFits c m a (a * a % m)) ∧ a ^ 3 % m = x := by
  have hcube : a * (a * a % m) % m = a ^ 3 % m := by
    rw [Nat.mul_mod_mod, Nat.pow_succ, Nat.pow_two, Nat.mul_comm a]
  rw [bnModExpDigit_wide J hq hroom hq0, if_neg (by decide), if_neg (by decide),
    if_neg (by decide), if_pos rfl]
  by_cases hsq : ModMultFits c m a a
  · rw [exec_bind_of_ok (bnModMult_of_fits (y := a) (J 2) (.val ⟨c, a⟩) hm rfl hsq)]
    by_cases hmix : ModMultFits c m a (a * a % m)
    · rw [bnModMult_of_fits (y := a * a % m) (J 3) (.val ⟨c, a * a % m⟩) hm rfl hmix, hcube]
      constructor
      · rintro ⟨y, hy, hx⟩
        injection hy with _ hy
        exact ⟨⟨hsq, hmix⟩, by rw [← hx, ← hy]⟩
      · rintro ⟨-, hx⟩
        exact ⟨_, rfl, hx⟩
    · obtain ⟨t, herr⟩ := bnModMult_of_not_fits (q := q) (J 3) (.val ⟨c, a * a % m⟩) hm rfl hmix
      rw [herr]
      refine iff_of_false ?_ fun h => hmix h.1.2
      rintro ⟨y, hy, -⟩
      cases hy
  · obtain ⟨t, herr⟩ := bnModMult_of_not_fits (q := q) (J 2) (.val ⟨c, a⟩) hm rfl hsq
    rw [bind_apply, exec_apply, herr]
    refine iff_of_false ?_ fun h => hsq h.1.1
    rintro ⟨y, hy, -⟩
    cases hy

theorem bnModExp_three (J : Junk) (hm : 1 < m) (hq : q ≤ c) (hq0 : q ≠ 0)
    (hroom : limbCount 64 a * 2 ≤ c) {x : Nat} :
    (∃ y, bnModExp J (.val ⟨r, 3⟩) (.val ⟨q, m⟩) (⟨c, a⟩ : Num) = .ok () y ∧ y.val = x) ↔
      (ModMultFits c m a a ∧ ModMultFits c m (a * a % m) (a * a % m)) ∧ a ^ 3 % m = x := by
  have hm0 : m ≠ 0 := by omega
  by_cases ha1 : a = 1
  · -- the base one is returned before any product, and all its products fit
    subst ha1
    have hone : ModMultFits c m 1 1 := by
      have hl : limbCount 64 1 = 1 := rfl
      exact Or.inr (Or.inr ⟨by omega, Or.inl (by omega)⟩)
    rw [bnModExp_other J hq hq0 (by decide) (by decide), if_neg (not_lt.mpr hroom), if_pos rfl,
      Nat.one_mul, Nat.one_pow, Nat.mod_eq_of_lt hm]
    constructor
    · rintro ⟨y, hy, hx⟩
      injection hy with _ hy
      exact ⟨⟨hone, hone⟩, by rw [← hx, ← hy]⟩
    · rintro ⟨-, hx⟩
      exact ⟨_, rfl, hx⟩
  have hrun : bnModExp J (.val ⟨r, 3⟩) (.val ⟨q, m⟩) (⟨c, a⟩ : Num) =
      expLoop (J 2) (.val ⟨r, 3⟩) (.val ⟨q, m⟩) 2 0 ⟨c, a⟩ ⟨c, 1⟩ := by
    rw [bnModExp_other J hq hq0 (by decide) (by decide), if_neg (not_lt.mpr hroom), if_neg ha1]
    rfl
  have hfirst : ModMultFits c m 1 a := by
    by_cases ha0 : a = 0
    · exact Or.inr (Or.inl ha0)
    · have hl : limbCount 64 1 = 1 := rfl
      have hl0 : limbCount 64 a ≠ 0 := fun h => ha0 (limbCount_eq_zero.mp h)
      refine Or.inr (Or.inr ⟨by omega, Or.inr (Or.inl ?_)⟩)
      rw [Nat.one_mul]
      omega
  have hone := expLoop_step (c := c) (e := 3) (q := q) (r := r) (J 2) hm0 1 0 a 1
  have htwo := expLoop_step (c := c) (e := 3) (q := q) (r := r) (J 2) hm0 0 1 (a * a % m) (a % m)
  rw [hrun]
  by_cases hsq : ModMultFits c m a a
  · have hbit : 3 / 2 ^ 0 % 2 = 1 := rfl
    rw [hone.1 ⟨fun _ => hfirst, hsq⟩, if_pos hbit, Nat.one_mul]
    by_cases hsq' : ModMultFits c m (a * a % m) (a * a % m)
    · -- `a % m` fits beside the square of `a` because `a` does
      have hmix : ModMultFits c m (a % m) (a * a % m) :=
        (hsq.of_le_square (Nat.mod_le a m) (Nat.mod_le a m)).mixed hsq'
      rw [htwo.1 ⟨fun _ => hmix, hsq'⟩, if_pos (show 3 / 2 ^ 1 % 2 = 1 from rfl), expLoop,
        pure_apply, Nat.mod_mul_mod, Nat.mul_mod_mod, ← Nat.mul_assoc,
        show a * a * a = a ^ 3 by ring]
      constructor
      · rintro ⟨y, hy, hx⟩
        injection hy with _ hy
        exact ⟨⟨hsq, hsq'⟩, by rw [← hx, ← hy]⟩
      · rintro ⟨-, hx⟩
        exact ⟨_, rfl, hx⟩
    · obtain ⟨t, herr⟩ := htwo.2 fun h => hsq' h.2
      rw [herr]
      refine iff_of_false ?_ fun h => hsq' h.1.2
      rintro ⟨y, hy, -⟩
      cases hy
  · obtain ⟨t, herr⟩ := hone.2 fun h => hsq h.2
    rw [herr]
    refine iff_of_false ?_ fun h => hsq h.1.1
    rintro ⟨y, hy, -⟩
    cases hy

end ByValue

namespace Bn

open ByValue

/-- A call that returns 0 leaves `x`. -/
def Leaves (f : BnM Bn Unit) (b : Bn) (x : Nat) : Prop := ∃ t, f b = .ok () t ∧ t.value = x

/-- `bn_mod_exp` and `bn_mod_exp_digit` return 0 with the power below `m` only. -/
def ModExpExact (J J' : Junk) (m exp b : Bn) : Prop :=
  ∀ x, Leaves (bnModExp J (.val exp) (.val m)) b x ∨
      (exp.value < 2 ^ 64 ∧ Leaves (bnModExpDigit J' exp.value (.val m)) b x) →
    x = b.value ^ exp.value % m.value ∧ x < m.value

/-- The two functions return 0 for the same numbers, and leave the same. -/
def ModExpAgree (J J' : Junk) (m exp b : Bn) : Prop :=
  ∀ x, Leaves (bnModExp J (.val exp) (.val m)) b x ↔
    Leaves (bnModExpDigit J' exp.value (.val m)) b x

theorem count_ne_zero {b : Bn} (hb : b.WF) (h0 : b.value ≠ 0) : b.count ≠ 0 := by
  have hd : b.digits ≠ 0 := fun hd => h0 (hb.digits_eq_zero.mp hd)
  have := hb.digits_le
  omega

section

variable {m exp b : Bn} (J J' : Junk)

theorem leaves_bnModExp (hm : m.WF) (hexp : exp.WF) (hb : b.WF) {x : Nat} :
    Leaves (bnModExp J (.val exp) (.val m)) b x ↔
      ∃ y, bnModExp J (.val ⟨exp.count, exp.value⟩) (.val ⟨m.count, m.value⟩)
        (⟨b.count, b.value⟩ : Num) = .ok () y ∧ y.val = x :=
  (bnModExp_refines J (argWF_val hexp) (argWF_val hm)).ok_iff hb

theorem leaves_bnModExpDigit (e : Nat) (hm : m.WF) (hb : b.WF) {x : Nat} :
    Leaves (bnModExpDigit J e (.val m)) b x ↔
      ∃ y, bnModExpDigit J e (.val ⟨m.count, m.value⟩) (⟨b.count, b.value⟩ : Num) =
        .ok () y ∧ y.val = x :=
  (bnModExpDigit_refines J e (argWF_val hm)).ok_iff hb

/-- A value above the modulus comes back from an exponent of one alone. -/
theorem modExpExact_iff (hm : m.WF) (hexp : exp.WF) (hb : b.WF) (h1 : 1 < m.value) :
    ModExpExact J J' m exp b ↔
      (exp.value = 1 → b.count < m.count ∨ b.value < m.value) := by
  have hq0 := count_ne_zero hm (Nat.ne_of_gt (Nat.zero_lt_of_lt h1))
  constructor
  · intro h he
    by_contra hnot
    have hq : m.count ≤ b.count := by omega
    have hrun := bnModExp_one (a := b.value) (m := m.value) (r := exp.count) J hq
    rw [← he] at hrun
    have hval := (h b.value (Or.inl ((leaves_bnModExp J hm hexp hb).mpr ⟨_, hrun, rfl⟩))).2
    omega
  · intro hone x hx
    have hpow : x = b.value ^ exp.value % m.value := by
      by_cases he : exp.value = 1
      · -- what comes back is the base
        have hbase : x = b.value ∧ ¬b.count < m.count := by
          rcases hx with hx | ⟨-, hx⟩
          · obtain ⟨y, hy, hyx⟩ := (leaves_bnModExp J hm hexp hb).mp hx
            by_cases hq : b.count < m.count
            · rw [bnModExp_narrow J hq] at hy
              cases hy
            · rw [he, bnModExp_one J (not_lt.mp hq)] at hy
              injection hy with _ hy
              exact ⟨by rw [← hyx, ← hy], hq⟩
          · obtain ⟨y, hy, hyx⟩ := (leaves_bnModExpDigit J' exp.value hm hb).mp hx
            by_cases hq : b.count < m.count ∨ b.count < limbCount 64 b.value * 2
            · rw [bnModExpDigit_narrow J' hq] at hy
              cases hy
            · rw [bnModExpDigit_wide J' (by omega) (by omega) hq0, if_neg (by omega),
                if_pos he] at hy
              injection hy with _ hy
              exact ⟨by rw [← hyx, ← hy], by omega⟩
        rw [he, Nat.pow_one, Nat.mod_eq_of_lt ((hone he).resolve_left hbase.2), hbase.1]
      rcases hx with hx | ⟨hfit, hx⟩
      · obtain ⟨y, hy, hyx⟩ := (leaves_bnModExp J hm hexp hb).mp hx
        rw [← hyx, bnModExp_sound J h1 hq0 he hy]
      · obtain ⟨y, hy, hyx⟩ := (leaves_bnModExpDigit J' exp.value hm hb).mp hx
        by_cases h3 : exp.value = 3
        · by_cases hq : b.count < m.count ∨ b.count < limbCount 64 b.value * 2
          · rw [bnModExpDigit_narrow J' hq] at hy
            cases hy
          · rw [h3] at hy ⊢
            exact ((bnModExpDigit_three J' (by omega) (by omega) hq0 (by omega)).mp
              ⟨y, hy, hyx⟩).2.symm
        · rw [← bnModExp_eq_digit (r := exp.count) J J' hq0 he h3 hfit] at hy
          rw [← hyx, bnModExp_sound J h1 hq0 he hy]
    exact ⟨hpow, hpow ▸ Nat.mod_lt _ (Nat.zero_lt_of_lt h1)⟩

theorem modExpAgree_iff (hm : m.WF) (hexp : exp.WF) (hb : b.WF) (h1 : 1 < m.value)
    (hfit : exp.value < 2 ^ 64) :
    ModExpAgree J J' m exp b ↔
      (exp.value = 1 → b.count < m.count ∨ 2 * b.digits ≤ b.count) ∧
        (exp.value = 3 → b.count < m.count ∨ CubeFits b.count m.value b.value) := by
  have hq0 := count_ne_zero hm (Nat.ne_of_gt (Nat.zero_lt_of_lt h1))
  have hm0 : m.value ≠ 0 := by omega
  have hrun : ModExpAgree J J' m exp b ↔ ∀ x,
      (∃ y, bnModExp J (.val ⟨exp.count, exp.value⟩) (.val ⟨m.count, m.value⟩)
        (⟨b.count, b.value⟩ : Num) = .ok () y ∧ y.val = x) ↔
      (∃ y, bnModExpDigit J' exp.value (.val ⟨m.count, m.value⟩) (⟨b.count, b.value⟩ : Num) =
        .ok () y ∧ y.val = x) := by
    unfold ModExpAgree
    simp only [leaves_bnModExp J hm hexp hb, leaves_bnModExpDigit J' exp.value hm hb]
  rw [hrun, hb.digits_eq]
  generalize exp.value = e at hfit ⊢
  by_cases hq : b.count < m.count
  · simp [bnModExp_narrow J hq, bnModExpDigit_narrow J' (Or.inl hq), hq]
  have hqle := not_lt.mp hq
  by_cases he1 : e = 1
  · subst he1
    rw [bnModExp_one J hqle]
    by_cases hroom : b.count < limbCount 64 b.value * 2
    · -- only `bn_mod_exp` returns 0
      rw [bnModExpDigit_narrow J' (Or.inr hroom)]
      refine iff_of_false (fun h => ?_) fun h => (h.1 rfl).elim hq (by omega)
      obtain ⟨y, hy, -⟩ := (h b.value).mp ⟨_, rfl, rfl⟩
      cases hy
    · rw [bnModExpDigit_wide J' hqle (not_lt.mp hroom) hq0, if_neg (by decide), if_pos rfl]
      exact iff_of_true (fun _ => Iff.rfl)
        ⟨fun _ => Or.inr (by omega), fun h => absurd h (by decide)⟩
  by_cases he3 : e = 3
  · subst he3
    by_cases hroom : b.count < limbCount 64 b.value * 2
    · -- none does, and the cube does not fit
      have hb0 : b.value ≠ 0 := by
        intro h0
        rw [h0, limbCount_zero] at hroom
        omega
      rw [bnModExpDigit_narrow J' (Or.inr hroom), bnModExp_other J hqle hq0 (by decide) (by decide),
        if_pos hroom]
      refine iff_of_true (fun _ => Iff.rfl) ⟨fun h => absurd h (by decide), fun _ => Or.inr ?_⟩
      intro hsq
      have := ((hsq.resolve_left hb0).resolve_left hb0).1
      omega
    · have hroom := not_lt.mp hroom
      simp only [bnModExp_three J h1 hqle hq0 hroom, bnModExpDigit_three J' hm0 hqle hq0 hroom]
      constructor
      · intro h
        refine ⟨fun h => absurd h (by decide), fun _ => Or.inr fun hsq hmix => ?_⟩
        exact ((h _).mpr ⟨⟨hsq, hmix⟩, rfl⟩).1.2
      · rintro ⟨-, hcube⟩ x
        have hfits := (hcube trivial).resolve_left hq
        constructor
        · rintro ⟨⟨hsq, hsq'⟩, hx⟩
          exact ⟨⟨hsq, hsq.mixed hsq'⟩, hx⟩
        · rintro ⟨⟨hsq, hmix⟩, hx⟩
          exact ⟨⟨hsq, hfits hsq hmix⟩, hx⟩
  · rw [bnModExp_eq_digit J J' hq0 he1 he3 hfit]
    exact iff_of_true (fun _ => Iff.rfl) ⟨fun h => absurd h he1, fun h => absurd h he3⟩

/-- The value is right unless the exponent is one and the base is not reduced; the two functions
part only on one and three, in numbers without room for a square. -/
theorem modExp_iff (hm : m.WF) (hexp : exp.WF) (hb : b.WF) (h1 : 1 < m.value) :
    (ModExpExact J J' m exp b ↔ (exp.value = 1 → b.count < m.count ∨ b.value < m.value)) ∧
      (exp.value < 2 ^ 64 → (ModExpAgree J J' m exp b ↔
        (exp.value = 1 → b.count < m.count ∨ 2 * b.digits ≤ b.count) ∧
          (exp.value = 3 → b.count < m.count ∨ CubeFits b.count m.value b.value))) :=
  ⟨modExpExact_iff J J' hm hexp hb h1, modExpAgree_iff J J' hm hexp hb h1⟩

end

/-- Fifth powers modulo 7, of a base above it. -/
theorem modExp_nine : ModExpExact blank blank (oneDigit 1 7) (oneDigit 1 5) (oneDigit 2 9) ∧
    ModExpAgree blank blank (oneDigit 1 7) (oneDigit 1 5) (oneDigit 2 9) := by
  have h7 : (oneDigit 1 7).WF := oneDigit_wf (by decide) (by decide) (by decide)
  have h5 : (oneDigit 1 5).WF := oneDigit_wf (by decide) (by decide) (by decide)
  have h9 : (oneDigit 2 9).WF := oneDigit_wf (by decide) (by decide) (by decide)
  have h := modExp_iff blank blank h7 h5 h9 (by decide)
  exact ⟨h.1.mpr (by decide), (h.2 (by decide)).mpr ⟨by decide, fun h => absurd h (by decide)⟩⟩

/-- 9 to the first power modulo 7 is left as 9. -/
theorem not_forall_modExpExact :
    ¬ ∀ (J J' : Junk) (m exp b : Bn), m.WF → exp.WF → b.WF → 1 < m.value →
      ModExpExact J J' m exp b := by
  intro h
  have h9 := h blank blank (oneDigit 1 7) (oneDigit 1 1) (oneDigit 2 9)
    (oneDigit_wf (by decide) (by decide) (by decide))
    (oneDigit_wf (by decide) (by decide) (by decide))
    (oneDigit_wf (by decide) (by decide) (by decide)) (by decide) 9 (Or.inl ⟨_, rfl, by decide⟩)
  exact absurd h9.2 (by decide)

end Bn

end BigNum
