import Liblcb.BigNum.NumEuclid
import Liblcb.BigNum.DivBounds
import Liblcb.BigNum.ModHom

/-!
# The modular inversions

`bn_mod_inv_bin` inverts every unit of an odd modulus.  The four inversions leave the same number
except where one of them gives up: `bn_mod_inv2` has four spare digits for the product of a quotient
with a residue, and `bn_mod_inv1` copies the modulus into `bn` when its result is negative.
-/

namespace BigNum

open Limbs StateErr ByValue Euclid

theorem Refines.ok_iff {α : Type} {f : BnM Bn α} {g : BnM Num α} (h : Refines f g) {b : Bn}
    (hb : b.WF) {a : α} {x : Nat} :
    (∃ t, f b = .ok a t ∧ t.value = x) ↔ ∃ y, g b.abs = .ok a y ∧ y.val = x := by
  constructor
  · rintro ⟨t, ht, hval⟩
    have hrun := (h b hb).1
    rw [ht, mapRes_ok] at hrun
    exact ⟨t.abs, hrun.symm, hval⟩
  · rintro ⟨y, hy, hval⟩
    obtain ⟨t, ht, habs, -⟩ := h.ok hb hy
    exact ⟨t, ht, by rw [← hval, ← habs]; rfl⟩

theorem Refines.error {α : Type} {f : BnM Bn α} {g : BnM Num α} (h : Refines f g) {b : Bn}
    (hb : b.WF) {e : Err} {y : Num} (hy : g b.abs = .error e y) :
    ∃ t, f b = .error e t ∧ t.abs = y := by
  have hrun := (h b hb).1
  rw [hy] at hrun
  cases hf : f b with
  | ok a t =>
    rw [hf, mapRes_ok] at hrun
    cases hrun
  | error e' t =>
    rw [hf, mapRes_error] at hrun
    injection hrun with he ht
    exact ⟨t, by rw [he], ht⟩

namespace ByValue

open BnOps

variable {a c k q m : Nat}

theorem bnAssign_ok_iff {r x : Nat} (s : Num) :
    (∃ y, bnAssign (.val (⟨k, r⟩ : Num)) s = .ok () y ∧ y.val = x) ↔
      limbCount 64 r ≤ s.count ∧ r = x := by
  constructor
  · rintro ⟨y, hy, hval⟩
    by_cases hfit : limbCount 64 r ≤ s.count
    · rw [show s = ⟨s.count, s.val⟩ from rfl, bnAssign_val hfit] at hy
      injection hy with _ hy
      exact ⟨hfit, by rw [← hval, ← hy]⟩
    · have herr : bnAssign (.val (⟨k, r⟩ : Num)) s = .error .eoverflow s :=
        if_pos (not_le.mp hfit)
      rw [herr] at hy
      cases hy
  · rintro ⟨hfit, rfl⟩
    exact ⟨⟨s.count, r⟩, bnAssign_val hfit, rfl⟩

/-- The capacity `bn_mod_inv1` needs: the digits of the modulus, or those of a result that comes
with a positive sign. -/
def ResultFits (c m a : Nat) : Prop :=
  limbCount 64 m ≤ c ∨
    ((quotients m a).length % 2 = 1 ∧ limbCount 64 (lastCofactor m a) ≤ c)

theorem ResultFits.inverse_le (ha0 : a ≠ 0) (ha : a < m) (h : ResultFits c m a) :
    limbCount 64 (inverse m a) ≤ c := by
  rcases h with hm | ⟨hodd, hfit⟩
  · exact limbCount_le_of_lt (inverse_lt ha0 ha) hm
  · rwa [inverse, if_pos hodd]

theorem bnModInv1_ok_iff (J : Junk) (hdig : limbCount 64 m ≤ 28) (ha0 : a ≠ 0) (ha : a < m)
    {x : Nat} :
    (∃ y, bnModInv1 J (.val ⟨q, m⟩) (⟨c, a⟩ : Num) = .ok () y ∧ y.val = x) ↔
      ResultFits c m a ∧ inverse m a = x := by
  have hmem := lastCofactor_mem ha0 ha
  rw [bnModInv1_run J hdig ha0 ha]
  by_cases hodd : (quotients m a).length % 2 = 1
  · rw [if_pos hodd, bnAssign_ok_iff, inverse, if_pos hodd]
    constructor
    · rintro ⟨hfit, hx⟩
      exact ⟨Or.inr ⟨hodd, hfit⟩, hx⟩
    · rintro ⟨hfit | ⟨-, hfit⟩, hx⟩
      · exact ⟨limbCount_le_of_lt hmem.2 hfit, hx⟩
      · exact ⟨hfit, hx⟩
  · rw [if_neg hodd, inverse, if_neg hodd]
    have hfits : ResultFits c m a ↔ limbCount 64 m ≤ c := or_iff_left fun h => hodd h.1
    rw [hfits]
    by_cases hm : limbCount 64 m ≤ c
    · rw [bind_of_ok (bnAssign_val hm),
        bind_of_ok (bnSub_of_le (Nat.le_of_lt hmem.2) (lt_cap_of_limbCount_le hm)), pure_apply]
      constructor
      · rintro ⟨y, hy, hx⟩
        injection hy with _ hy
        exact ⟨hm, by rw [← hx, ← hy]⟩
      · rintro ⟨-, hx⟩
        exact ⟨_, rfl, hx⟩
    · have herr : bnAssign (.val (⟨q, m⟩ : Num)) (⟨c, a⟩ : Num) = .error .eoverflow ⟨c, a⟩ :=
        if_pos (not_le.mp hm)
      rw [bind_of_error herr]
      refine iff_of_false ?_ fun h => hm h.1
      rintro ⟨y, hy, -⟩
      cases hy

/-- The quotients of Euclid's algorithm that come with a negative cofactor fit beside its
residue in the four digits `bn_mod_inv2` has to spare. -/
def QuotientsFit (m a : Nat) : Prop :=
  ∀ as x bs, quotients m a = as ++ x :: bs → as.length % 2 = 1 →
    ProductFits (4 + limbCount 64 m) m x (m - cofactor as)

theorem fitsAfter_iff :
    FitsAfter (4 + limbCount 64 m) m (0, 1) false (quotients m a) ↔ QuotientsFit m a := by
  simp only [FitsAfter, QuotientsFit, Bool.false_xor, decide_eq_true_eq]
  exact Iff.rfl

theorem bnModInv2_ok_iff (J : Junk) (hdig : limbCount 64 m ≤ 28) (ha0 : a ≠ 0) (ha : a < m)
    (hca : limbCount 64 a ≤ c) {x : Nat} :
    (∃ y, bnModInv2 J (.val ⟨q, m⟩) (⟨c, a⟩ : Num) = .ok () y ∧ y.val = x) ↔
      QuotientsFit m a ∧ limbCount 64 (inverse m a) ≤ c ∧ inverse m a = x := by
  have hrun := bnModInv2_run (q := q) J hdig ha0 ha hca
  rw [fitsAfter_iff] at hrun
  by_cases hfits : QuotientsFit m a
  · obtain ⟨s', hcount, hres⟩ := hrun.1 hfits
    rw [hres, bnAssign_ok_iff, hcount]
    exact (and_iff_right hfits).symm
  · obtain ⟨e, s', hres⟩ := hrun.2 hfits
    rw [hres]
    refine iff_of_false ?_ fun h => hfits h.1
    rintro ⟨y, hy, -⟩
    cases hy

end ByValue

namespace ByValue

theorem mem_quotients_le {u v x : Nat} (hx : x ∈ quotients u v) : x ≤ max u v := by
  induction v using Nat.strong_induction_on generalizing u with
  | _ v ih =>
    by_cases hv : v = 0
    · rw [hv, quotients_zero] at hx
      cases hx
    · have hmod := Nat.mod_lt u (Nat.pos_of_ne_zero hv)
      rw [quotients_of_ne_zero u hv] at hx
      rcases List.mem_cons.mp hx with rfl | hx
      · exact (Nat.div_le_self u v).trans (Nat.le_max_left u v)
      · have := ih _ hmod hx
        omega

theorem quotientsFit_of_digits {m a : Nat} (hdig : limbCount 64 a ≤ 4) :
    QuotientsFit m a := by
  rintro (_ | ⟨y, as⟩) x bs heq hodd
  · cases hodd
  · -- after the first quotient the numbers divided are at most `a`
    have hx : x ≤ a := by
      by_cases ha0 : a = 0
      · rw [ha0, quotients_zero] at heq
        cases heq
      · rw [quotients_of_ne_zero m ha0] at heq
        injection heq with _ htail
        have hmod := Nat.mod_lt m (Nat.pos_of_ne_zero ha0)
        have hmem := mem_quotients_le (htail ▸ List.mem_append_right as List.mem_cons_self :
          x ∈ quotients a (m % a))
        omega
    have hd : m - cofactor (y :: as) ≤ m := Nat.sub_le _ _
    generalize m - cofactor (y :: as) = d at hd
    have hlx := (limbCount_mono (w := 64) (by decide) hx).trans hdig
    have hld := limbCount_mono (w := 64) (by decide) hd
    refine ⟨by omega, fun hfull => ?_⟩
    have hbits : bitCount (x * d) ≤ 64 * 4 + bitCount m := by
      rw [Bn.bitCount_lt_iff, Nat.pow_add]
      exact Nat.mul_lt_mul_of_lt_of_le (lt_cap_of_limbCount_le hlx)
        (hd.trans (Nat.le_of_lt ((Bn.bitCount_lt_iff m _).mp le_rfl))) (Nat.two_pow_pos _)
    unfold topClz
    omega

end ByValue

namespace Bn

/-- `bn_mod_inv_bin` of a unit of an odd modulus ends and leaves the inverse. -/
theorem bnModInvBin_inverts (J : Junk) {m : Bn} (hm : m.WF) {b : Bn} (hb : b.WF)
    (hodd : m.value % 2 = 1) (hpos : 0 < b.value) (hlt : b.value < m.value)
    (hcop : Nat.Coprime b.value m.value) (hbits : (4 + max b.digits m.digits) * 64 ≤ 2048)
    (hc : m.digits ≤ b.count) :
    ∃ t, bnModInvBin J (.val m) b = .ok () t ∧ 0 < t.value ∧ t.value < m.value ∧
      b.value * t.value ≡ 1 [MOD m.value] := by
  have hdig : limbCount 64 m.value ≤ 28 := by
    rw [← hm.digits_eq]
    omega
  rw [hm.digits_eq] at hc
  obtain ⟨r, hr, hinv, hrun⟩ := bnModInvBin_run (c := b.count) (q := m.count) J hodd hdig
    (Nat.pos_iff_ne_zero.mp hpos) hlt hcop
  rw [bnAssign_val (limbCount_le_of_lt hr hc)] at hrun
  obtain ⟨t, ht, habs, -⟩ := (bnModInvBin_refines J (argWF_val hm)).ok hb hrun
  have hval : t.value = r := congrArg Num.val habs
  refine ⟨t, ht, ?_, ?_, ?_⟩
  · -- zero is nobody's inverse modulo a number above one
    rw [hval]
    apply Nat.pos_of_ne_zero
    rintro rfl
    rw [Nat.cast_zero, zero_mul, ← Nat.cast_one, ← Nat.cast_zero,
      ZMod.natCast_eq_natCast_iff'] at hinv
    rw [Nat.zero_mod, Nat.mod_eq_of_lt (by omega)] at hinv
    exact absurd hinv (by decide)
  · rwa [hval]
  · rw [← ZMod.natCast_eq_natCast_iff, hval, Nat.cast_mul, mul_comm, hinv, Nat.cast_one]

/-- 3 * 5 = 1 modulo 7. -/
theorem bnModInvBin_inverts_three :
    ∃ t, bnModInvBin blank (.val (oneDigit 1 7)) (oneDigit 1 3) = .ok () t ∧ 0 < t.value ∧
      t.value < 7 ∧ 3 * t.value ≡ 1 [MOD 7] :=
  bnModInvBin_inverts blank (oneDigit_wf (by decide) (by decide) (by decide))
    (oneDigit_wf (by decide) (by decide) (by decide)) (by decide) (by decide) (by decide)
    (by decide) (by decide) (by decide)

/-- The four inversions return and leave one number. -/
def InversesAgree (J : Junk) (m b : Bn) : Prop :=
  ∃ x, (∃ t, bnModInv1 J (.val m) b = .ok () t ∧ t.value = x) ∧
    (∃ t, bnModInv2 J (.val m) b = .ok () t ∧ t.value = x) ∧
    (∃ t, bnModInvBin J (.val m) b = .ok () t ∧ t.value = x) ∧
    (∃ t, bnModInvMont J (.val m) b = .ok () t ∧ t.value = x)

/-- They agree exactly when the quotients fit `bn_mod_inv2` and the result `bn_mod_inv1`. -/
theorem inversesAgree_iff (J : Junk) {m : Bn} (hm : m.WF) {b : Bn} (hb : b.WF)
    (hodd : m.value % 2 = 1) (hpos : 0 < b.value) (hlt : b.value < m.value)
    (hcop : Nat.Coprime b.value m.value) (hbits : (4 + max b.digits m.digits) * 64 ≤ 2048) :
    InversesAgree J m b ↔ QuotientsFit m.value b.value ∧ ResultFits b.count m.value b.value := by
  have hdig : limbCount 64 m.value ≤ 28 := by
    rw [← hm.digits_eq]
    omega
  have h0 := Nat.pos_iff_ne_zero.mp hpos
  have hca : limbCount 64 b.value ≤ b.count := by
    rw [← hb.digits_eq]
    exact hb.digits_le
  have hmwf := argWF_val hm
  have h1 := fun x => ((bnModInv1_refines J hmwf).ok_iff (a := ()) hb).trans
    (bnModInv1_ok_iff (c := b.count) (q := m.count) (x := x) J hdig h0 hlt)
  have h2 := fun x => ((bnModInv2_refines J hmwf).ok_iff (a := ()) hb).trans
    (bnModInv2_ok_iff (q := m.count) (x := x) J hdig h0 hlt hca)
  constructor
  · rintro ⟨x, hinv1, hinv2, -, -⟩
    exact ⟨((h2 x).mp hinv2).1, ((h1 x).mp hinv1).1⟩
  · rintro ⟨hquot, hres⟩
    have hfit := hres.inverse_le h0 hlt
    obtain ⟨r3, hr3, hinv3, hrun3⟩ := bnModInvBin_run (c := b.count) (q := m.count) J hodd hdig h0
      hlt hcop
    obtain ⟨r4, hr4, hinv4, hrun4⟩ := bnModInvMont_run (c := b.count) (q := m.count) J hodd hdig h0
      hlt hcop
    rw [eq_inverse h0 hlt hcop hr3 hinv3] at hrun3
    rw [eq_inverse h0 hlt hcop hr4 hinv4] at hrun4
    refine ⟨inverse m.value b.value, (h1 _).mpr ⟨hres, rfl⟩, (h2 _).mpr ⟨hquot, hfit, rfl⟩, ?_, ?_⟩
    · exact ((bnModInvBin_refines J hmwf).ok_iff hb).mpr ⟨_, hrun3.trans (bnAssign_val hfit), rfl⟩
    · exact ((bnModInvMont_refines J hmwf).ok_iff hb).mpr ⟨_, hrun4.trans (bnAssign_val hfit), rfl⟩

/-- 3 modulo 7 once more. -/
theorem inversesAgree_three : InversesAgree blank (oneDigit 1 7) (oneDigit 1 3) :=
  (inversesAgree_iff blank (oneDigit_wf (by decide) (by decide) (by decide))
    (oneDigit_wf (by decide) (by decide) (by decide)) (by decide) (by decide) (by decide)
    (by decide) (by decide)).mpr ⟨quotientsFit_of_digits (by decide), Or.inl (by decide)⟩

/-- The number `2 ^ 256` and twice it plus one, on five digits. -/
def wideUnit : Bn := ⟨5, 5, ⟨[0, 0, 0, 0, 1] ++ List.replicate 27 0, rfl⟩⟩

def wideModulus : Bn := ⟨5, 5, ⟨[1, 0, 0, 0, 2] ++ List.replicate 27 0, rfl⟩⟩

/-- The second quotient of `2 ^ 257 + 1` by `2 ^ 256` has five digits, and its residue five more:
`bn_mod_inv2` gives up. -/
theorem not_forall_inversesAgree :
    ¬ ∀ (J : Junk) (m b : Bn), m.WF → b.WF → m.value % 2 = 1 → 0 < b.value → b.value < m.value →
      Nat.Coprime b.value m.value → (4 + max b.digits m.digits) * 64 ≤ 2048 →
      InversesAgree J m b := by
  intro h
  have hm : wideModulus.WF := ⟨by decide, by decide, Or.inr (by decide)⟩
  have hb : wideUnit.WF := ⟨by decide, by decide, Or.inr (by decide)⟩
  obtain ⟨x, -, ⟨t, ht, -⟩, -⟩ := h blank wideModulus wideUnit hm hb (by decide) (by decide)
    (by decide) (by decide +kernel) (by decide)
  have hfails : isOk (bnModInv2 blank (.val wideModulus) wideUnit) = false := by decide +kernel
  rw [ht] at hfails
  contradiction

end Bn

end BigNum
