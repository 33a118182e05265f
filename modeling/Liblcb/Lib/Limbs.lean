import Mathlib.Data.Nat.Digits.Lemmas
import Mathlib.Data.Nat.Bitwise
import Mathlib.Tactic.Ring
import Mathlib.Tactic.Linarith

/-!
# Little-endian limb lists

A natural number stored as a list of `w`-bit limbs, least significant limb first.  The same list
type describes an array of machine words and the byte image of that array, so regrouping a word
array into bytes and back is a statement about two widths.
-/

namespace Limbs

variable {w : Nat}

/-- The number stored by a little-endian list of `w`-bit limbs. -/
def val (ds : List (BitVec w)) : Nat :=
  Nat.ofDigits (2 ^ w) (ds.map BitVec.toNat)

/-- The `k` low `w`-bit limbs of `v`. -/
def limbs (w : Nat) : Nat → Nat → List (BitVec w)
  | 0, _ => []
  | k + 1, v => BitVec.ofNat w v :: limbs w k (v / 2 ^ w)

/-- Number of `w`-bit limbs needed to write `v`. -/
def limbCount (w v : Nat) : Nat := if v = 0 then 0 else v.log2 / w + 1

@[simp] theorem val_nil : val ([] : List (BitVec w)) = 0 := rfl

@[simp] theorem val_cons (d : BitVec w) (ds : List (BitVec w)) :
    val (d :: ds) = d.toNat + 2 ^ w * val ds := by
  simp [val, Nat.ofDigits_cons]

theorem pow_succ_mul (w k : Nat) : 2 ^ (w * (k + 1)) = 2 ^ w * 2 ^ (w * k) := by
  rw [Nat.mul_succ, Nat.pow_add, Nat.mul_comm]

theorem val_append (as bs : List (BitVec w)) :
    val (as ++ bs) = val as + 2 ^ (w * as.length) * val bs := by
  induction as with
  | nil => simp
  | cons a as ih =>
    rw [List.cons_append, val_cons, ih, val_cons, List.length_cons, pow_succ_mul]
    ring

theorem val_lt (ds : List (BitVec w)) : val ds < 2 ^ (w * ds.length) := by
  induction ds with
  | nil => simp
  | cons d ds ih =>
    rw [val_cons, List.length_cons, pow_succ_mul]
    have hd := d.isLt
    calc d.toNat + 2 ^ w * val ds < 2 ^ w + 2 ^ w * val ds := by omega
      _ = 2 ^ w * (val ds + 1) := by ring
      _ ≤ 2 ^ w * 2 ^ (w * ds.length) := Nat.mul_le_mul_left _ ih

@[simp] theorem val_replicate_zero (k : Nat) : val (List.replicate k (0 : BitVec w)) = 0 := by
  induction k with
  | zero => simp
  | succ k ih => rw [List.replicate_succ, val_cons, ih]; simp

theorem val_take_drop (k : Nat) (ds : List (BitVec w)) (hk : k ≤ ds.length) :
    val ds = val (ds.take k) + 2 ^ (w * k) * val (ds.drop k) := by
  conv_lhs => rw [← List.take_append_drop k ds, val_append]
  rw [List.length_take, Nat.min_eq_left hk]

theorem val_take (k : Nat) (ds : List (BitVec w)) : val (ds.take k) = val ds % 2 ^ (w * k) := by
  by_cases hk : k ≤ ds.length
  · rw [val_take_drop k ds hk, Nat.add_mul_mod_self_left]
    refine (Nat.mod_eq_of_lt ?_).symm
    simpa [Nat.min_eq_left hk] using val_lt (ds.take k)
  · rw [List.take_of_length_le (by omega)]
    refine (Nat.mod_eq_of_lt ((val_lt ds).trans_le ?_)).symm
    exact Nat.pow_le_pow_right (by omega) (Nat.mul_le_mul_left _ (by omega))

theorem val_drop (k : Nat) (ds : List (BitVec w)) : val (ds.drop k) = val ds / 2 ^ (w * k) := by
  by_cases hk : k ≤ ds.length
  · have hpos : 0 < 2 ^ (w * k) := Nat.two_pow_pos _
    have hlt : val (ds.take k) < 2 ^ (w * k) := by
      simpa [Nat.min_eq_left hk] using val_lt (ds.take k)
    rw [val_take_drop k ds hk, Nat.add_mul_div_left _ _ hpos, Nat.div_eq_of_lt hlt, Nat.zero_add]
  · rw [List.drop_of_length_le (by omega), val_nil]
    refine (Nat.div_eq_of_lt ((val_lt ds).trans_le ?_)).symm
    exact Nat.pow_le_pow_right (by omega) (Nat.mul_le_mul_left _ (by omega))

theorem val_inj {as bs : List (BitVec w)} (hlen : as.length = bs.length) (hval : val as = val bs) :
    as = bs := by
  induction as generalizing bs with
  | nil => exact (List.length_eq_zero_iff.mp hlen.symm).symm
  | cons a as ih =>
    match bs, hlen, hval with
    | [], hlen, _ => simp at hlen
    | b :: bs, hlen, hval =>
      rw [val_cons, val_cons] at hval
      have hmod := congrArg (· % 2 ^ w) hval
      have hdiv := congrArg (· / 2 ^ w) hval
      simp only [Nat.add_mul_mod_self_left, Nat.mod_eq_of_lt a.isLt,
        Nat.mod_eq_of_lt b.isLt] at hmod
      simp only [Nat.add_mul_div_left _ _ (Nat.two_pow_pos w), Nat.div_eq_of_lt a.isLt,
        Nat.div_eq_of_lt b.isLt, Nat.zero_add] at hdiv
      rw [BitVec.eq_of_toNat_eq hmod, ih (by simpa using hlen) hdiv]

@[simp] theorem length_limbs (k v : Nat) : (limbs w k v).length = k := by
  induction k generalizing v with
  | zero => rfl
  | succ k ih => simp [limbs, ih]

theorem val_limbs (k v : Nat) : val (limbs w k v) = v % 2 ^ (w * k) := by
  induction k generalizing v with
  | zero => simp [limbs, Nat.mod_one]
  | succ k ih =>
    rw [limbs, val_cons, ih, BitVec.toNat_ofNat, pow_succ_mul, Nat.mod_mul]

theorem val_limbs_of_lt {k v : Nat} (hv : v < 2 ^ (w * k)) : val (limbs w k v) = v := by
  rw [val_limbs, Nat.mod_eq_of_lt hv]

theorem limbs_val (ds : List (BitVec w)) : limbs w ds.length (val ds) = ds :=
  val_inj (by simp) (val_limbs_of_lt (val_lt ds))

theorem limbCount_le_iff (hw : 0 < w) (v k : Nat) : limbCount w v ≤ k ↔ v < 2 ^ (w * k) := by
  unfold limbCount
  by_cases hv : v = 0
  · simp [hv]
  · rw [if_neg hv, ← Nat.log2_lt hv, Nat.succ_le_iff, Nat.div_lt_iff_lt_mul hw, Nat.mul_comm k w]

theorem lt_limbCount_iff (hw : 0 < w) (v k : Nat) : k < limbCount w v ↔ 2 ^ (w * k) ≤ v := by
  have h := limbCount_le_iff hw v k
  omega

@[simp] theorem limbCount_zero : limbCount w 0 = 0 := rfl

theorem limbCount_eq_zero {v : Nat} : limbCount w v = 0 ↔ v = 0 := by
  unfold limbCount
  split <;> simp_all

theorem lt_pow_limbCount (hw : 0 < w) (v : Nat) : v < 2 ^ (w * limbCount w v) :=
  (limbCount_le_iff hw v _).mp le_rfl

theorem limbCount_mono (hw : 0 < w) {u v : Nat} (huv : u ≤ v) : limbCount w u ≤ limbCount w v :=
  (limbCount_le_iff hw u _).mpr (huv.trans_lt (lt_pow_limbCount hw v))

theorem limbCount_add_le_mul (hw : 0 < w) {u v : Nat} (hu : u ≠ 0) (hv : v ≠ 0) :
    limbCount w u + limbCount w v ≤ limbCount w (u * v) + 1 := by
  have hpos : ∀ x : Nat, x ≠ 0 → limbCount w x ≠ 0 := fun x hx h => hx (limbCount_eq_zero.mp h)
  obtain ⟨i, hi⟩ := Nat.exists_eq_succ_of_ne_zero (hpos u hu)
  obtain ⟨j, hj⟩ := Nat.exists_eq_succ_of_ne_zero (hpos v hv)
  have hlo : 2 ^ (w * i) ≤ u := (lt_limbCount_iff hw u i).mp (by omega)
  have hlo' : 2 ^ (w * j) ≤ v := (lt_limbCount_iff hw v j).mp (by omega)
  have hmul : i + j < limbCount w (u * v) := by
    rw [lt_limbCount_iff hw, Nat.mul_add, Nat.pow_add]
    exact Nat.mul_le_mul hlo hlo'
  omega

theorem limbCount_val_concat (hw : 0 < w) (ds : List (BitVec w)) {d : BitVec w} (hd : d ≠ 0) :
    limbCount w (val (ds ++ [d])) = ds.length + 1 := by
  have hpos : 0 < d.toNat := by
    have : d.toNat ≠ 0 := fun h => hd (BitVec.eq_of_toNat_eq (by simpa using h))
    omega
  apply le_antisymm
  · rw [limbCount_le_iff hw]
    simpa using val_lt (ds ++ [d])
  · rw [Nat.succ_le_iff, lt_limbCount_iff hw, val_append, val_cons, val_nil]
    calc 2 ^ (w * ds.length) ≤ 2 ^ (w * ds.length) * d.toNat := Nat.le_mul_of_pos_right _ hpos
      _ ≤ _ := by simp

theorem reverse_dropWhile_zero (hw : 0 < w) (ds : List (BitVec w)) :
    (ds.reverse.dropWhile (· = 0)).reverse = limbs w (limbCount w (val ds)) (val ds) := by
  induction ds using List.reverseRecOn with
  | nil => rfl
  | append_singleton ds d ih =>
    rw [List.reverse_append, List.reverse_singleton, List.singleton_append]
    by_cases hd : d = 0
    · have hval : val (ds ++ [d]) = val ds := by
        rw [hd, val_append, val_cons, val_nil]
        simp
      rw [List.dropWhile_cons_of_pos (by simp [hd]), ih, hval]
    · have hall := limbs_val (ds ++ [d])
      rw [List.length_append, List.length_singleton] at hall
      rw [List.dropWhile_cons_of_neg (by rw [decide_eq_true_eq]; exact hd), List.reverse_cons,
        List.reverse_reverse, limbCount_val_concat hw ds hd, hall]

theorem limbs_append_zeros {v k n : Nat} (hv : v < 2 ^ (w * k)) (hk : k ≤ n) :
    limbs w k v ++ List.replicate (n - k) 0 = limbs w n v := by
  apply val_inj
  · rw [List.length_append, length_limbs, List.length_replicate, length_limbs]
    omega
  · rw [val_append, val_replicate_zero, Nat.mul_zero, Nat.add_zero, val_limbs_of_lt hv,
      val_limbs_of_lt (hv.trans_le (Nat.pow_le_pow_right (by decide) (Nat.mul_le_mul_left _ hk)))]

theorem take_limbs {v k n : Nat} (hk : k ≤ n) : (limbs w n v).take k = limbs w k v := by
  apply val_inj
  · rw [List.length_take, length_limbs, length_limbs]
    omega
  · rw [val_take, val_limbs, val_limbs,
      Nat.mod_mod_of_dvd _ (Nat.pow_dvd_pow 2 (Nat.mul_le_mul_left w hk))]

theorem testBit_val_cons (d : BitVec w) (ds : List (BitVec w)) (i : Nat) :
    (val (d :: ds)).testBit i = if i < w then d.getLsbD i else (val ds).testBit (i - w) := by
  rw [val_cons, Nat.add_comm, Nat.testBit_two_pow_mul_add _ d.isLt]
  rfl

theorem testBit_val (hw : 0 < w) (ds : List (BitVec w)) (i : Nat) :
    (val ds).testBit i = (ds.getD (i / w) 0).getLsbD (i % w) := by
  induction ds generalizing i with
  | nil => simp
  | cons d ds ih =>
    rw [testBit_val_cons]
    by_cases hi : i < w
    · rw [if_pos hi, Nat.div_eq_of_lt hi, Nat.mod_eq_of_lt hi]
      rfl
    · have hdiv : i / w = (i - w) / w + 1 := Nat.div_eq_sub_div hw (by omega)
      rw [if_neg hi, ih, hdiv, List.getD_cons_succ, ← Nat.mod_eq_sub_mod (by omega)]

/-- A bitwise operation on two lists of one length, limb by limb, is that operation on the
numbers. -/
theorem val_zipWith {f : BitVec w → BitVec w → BitVec w} {g : Nat → Nat → Nat}
    {o : Bool → Bool → Bool}
    (hf : ∀ a b i, i < w → (f a b).getLsbD i = o (a.getLsbD i) (b.getLsbD i))
    (hg : ∀ m n i, (g m n).testBit i = o (m.testBit i) (n.testBit i)) (ho : o false false = false)
    {as bs : List (BitVec w)} (hlen : as.length = bs.length) :
    val (List.zipWith f as bs) = g (val as) (val bs) := by
  apply Nat.eq_of_testBit_eq
  intro i
  rw [hg]
  induction as generalizing bs i with
  | nil =>
    rw [List.length_eq_zero_iff.mp hlen.symm]
    simp [ho]
  | cons a as ih =>
    match bs, hlen with
    | b :: bs, hlen =>
      rw [List.zipWith_cons_cons, testBit_val_cons, testBit_val_cons, testBit_val_cons]
      by_cases hi : i < w
      · rw [if_pos hi, if_pos hi, if_pos hi, hf a b i hi]
      · rw [if_neg hi, if_neg hi, if_neg hi, ih (by simpa using hlen)]

theorem getD_eq_ofNat (ds : List (BitVec w)) (i : Nat) :
    ds.getD i 0 = BitVec.ofNat w (val ds / 2 ^ (w * i)) := by
  rw [← val_drop]
  by_cases hi : i < ds.length
  · rw [List.drop_eq_getElem_cons hi, val_cons]
    apply BitVec.eq_of_toNat_eq
    rw [BitVec.toNat_ofNat, Nat.add_mul_mod_self_left, Nat.mod_eq_of_lt (ds[i]).isLt]
    simp [List.getD_eq_getElem?_getD, List.getElem?_eq_getElem hi]
  · rw [List.drop_of_length_le (by omega), val_nil, List.getD_eq_default _ _ (by omega)]
    simp

section CarryLoop

variable {γ : Type}

/-- The loop `for (i = 0; i < b_count; i ++) (a[i], crr) = step(a[i], b[i], crr)`: the limbs of `a`
above those of `b` are left alone and the last carry is returned. -/
def carryLoop (step : BitVec w → BitVec w → γ → BitVec w × γ) :
    List (BitVec w) → List (BitVec w) → γ → List (BitVec w) × γ
  | a :: as, b :: bs, c =>
    let r := step a b c
    let t := carryLoop step as bs r.2
    (r.1 :: t.1, t.2)
  | as, _, c => (as, c)

@[simp] theorem length_carryLoop (step : BitVec w → BitVec w → γ → BitVec w × γ)
    (as bs : List (BitVec w)) (c : γ) : (carryLoop step as bs c).1.length = as.length := by
  fun_induction carryLoop step as bs c with
  | case1 a as b bs c r t ih => simpa using ih
  | case2 => rfl

variable {step : BitVec w → BitVec w → BitVec w → BitVec w × BitVec w} {m : Nat}

theorem carryLoop_add (P : BitVec w → Prop)
    (hstep : ∀ a b c, P c → P (step a b c).2 ∧
      (step a b c).1.toNat + 2 ^ w * (step a b c).2.toNat = a.toNat + m * b.toNat + c.toNat)
    (as bs : List (BitVec w)) (c : BitVec w) (hc : P c) (hlen : bs.length ≤ as.length) :
    P (carryLoop step as bs c).2 ∧
    val (carryLoop step as bs c).1 + 2 ^ (w * bs.length) * (carryLoop step as bs c).2.toNat =
      val as + m * val bs + c.toNat := by
  induction bs generalizing as c with
  | nil => cases as <;> simpa [carryLoop] using hc
  | cons b bs ih =>
    match as, hlen with
    | a :: as, hlen =>
      obtain ⟨hP, hs⟩ := hstep a b c hc
      obtain ⟨hP', ht⟩ := ih as (step a b c).2 hP (by simpa using hlen)
      refine ⟨hP', ?_⟩
      simp only [carryLoop, val_cons, List.length_cons, pow_succ_mul]
      calc _ = (step a b c).1.toNat + 2 ^ w * (val (carryLoop step as bs (step a b c).2).1 +
              2 ^ (w * bs.length) * (carryLoop step as bs (step a b c).2).2.toNat) := by ring
        _ = ((step a b c).1.toNat + 2 ^ w * (step a b c).2.toNat) +
              2 ^ w * (val as + m * val bs) := by rw [ht]; ring
        _ = _ := by rw [hs]; ring

theorem carryLoop_sub (P : BitVec w → Prop)
    (hstep : ∀ a b c, P c → P (step a b c).2 ∧
      (step a b c).1.toNat + m * b.toNat + c.toNat = a.toNat + 2 ^ w * (step a b c).2.toNat)
    (as bs : List (BitVec w)) (c : BitVec w) (hc : P c) (hlen : bs.length ≤ as.length) :
    P (carryLoop step as bs c).2 ∧
    val (carryLoop step as bs c).1 + m * val bs + c.toNat =
      val as + 2 ^ (w * bs.length) * (carryLoop step as bs c).2.toNat := by
  induction bs generalizing as c with
  | nil => cases as <;> simpa [carryLoop] using hc
  | cons b bs ih =>
    match as, hlen with
    | a :: as, hlen =>
      obtain ⟨hP, hs⟩ := hstep a b c hc
      obtain ⟨hP', ht⟩ := ih as (step a b c).2 hP (by simpa using hlen)
      refine ⟨hP', ?_⟩
      simp only [carryLoop, val_cons, List.length_cons, pow_succ_mul]
      calc _ = (step a b c).1.toNat + m * b.toNat + c.toNat +
              2 ^ w * (val (carryLoop step as bs (step a b c).2).1 + m * val bs) := by ring
        _ = a.toNat + 2 ^ w * (val (carryLoop step as bs (step a b c).2).1 + m * val bs +
              (step a b c).2.toNat) := by rw [hs]; ring
        _ = _ := by rw [ht]; ring

end CarryLoop

end Limbs
