import Liblcb.BigNum.NumMod
import Liblcb.Curve.PointHom
import Mathlib.Algebra.Field.ZMod

/-!
# Field elements in numbers

`fe c v` is the number of `c` digits that holds the element `v` of the field of `p` elements.  The
modular functions take field elements to field elements when the number has room: `Sizes` says how
many digits the locals of the point functions have.
-/

namespace Curve

open BigNum BigNum.ByValue Limbs StateErr BnOps

variable {p : Nat}

/-- The number of `c` digits that holds `v`. -/
def fe (c : Nat) (v : ZMod p) : BigNum.Num := ⟨c, v.val⟩

/-- The prime `p` is held by a number of `q` digits; `d` digits have room for a product. -/
structure Sizes (p q d : Nat) : Prop where
  three_lt : 3 < p
  digits_le : limbCount 64 p ≤ 28
  dbl : 2 * limbCount 64 p ≤ d
  q_le : q ≤ d

theorem Sizes.lt_dbl {q d : Nat} (hs : Sizes p q d) : limbCount 64 p < d := by
  have h3 := hs.three_lt
  have hne : limbCount 64 p ≠ 0 := fun h => by simp [limbCount_eq_zero.mp h] at h3
  have := hs.dbl
  omega

theorem Sizes.le_dbl {q d : Nat} (hs : Sizes p q d) : limbCount 64 p ≤ d := Nat.le_of_lt hs.lt_dbl

theorem digits_pos (h3 : 3 < p) {c : Nat} (hc : limbCount 64 p ≤ c) : c ≠ 0 := by
  have hne : limbCount 64 p ≠ 0 := fun h => by simp [limbCount_eq_zero.mp h] at h3
  omega

section

variable [hp : Fact p.Prime] {c k q d : Nat}

theorem val_lt_p (v : ZMod p) : v.val < p := ZMod.val_lt v

theorem fe_eq {c n : Nat} {v : ZMod p} (hn : n < p) (hv : (n : ZMod p) = v) :
    (⟨c, n⟩ : BigNum.Num) = fe c v := by
  rw [fe, ← hv, ZMod.val_natCast_of_lt hn]

theorem fe_mod_eq {c n : Nat} {v : ZMod p} (hv : (n : ZMod p) = v) :
    (⟨c, n % p⟩ : BigNum.Num) = fe c v := by
  rw [fe, ← hv, ZMod.val_natCast]

/-! ## Reading -/

@[simp] theorem fe_isZero (v : ZMod p) : bnIsZero (fe c v) = decide (v = 0) := by
  rw [bnIsZero_eq, fe]
  simp

@[simp] theorem fe_isOne (v : ZMod p) : bnIsOne (fe c v) = decide (v = 1) := by
  rw [bnIsOne_eq, fe]
  congr 1
  rw [eq_iff_iff, ← (ZMod.val_injective p).eq_iff, ZMod.val_one]

theorem fe_cmp (v w : ZMod p) : bnCmp (fe c v) (fe k w) = .eq ↔ v = w := by
  rw [bnCmp_eq, Nat.compare_eq_eq, fe, fe, (ZMod.val_injective p).eq_iff]

/-! ## Assignments -/

theorem assign_fe {x : BigNum.Num} (w : ZMod p) (hc : limbCount 64 p ≤ x.count) :
    bnAssign (.val (fe k w)) x = .ok () (fe x.count w) :=
  bnAssign_val (limbCount_le_of_lt (val_lt_p w) hc)

theorem fe_assign (v w : ZMod p) (hc : limbCount 64 p ≤ c) :
    bnAssign (.val (fe k w)) (fe c v) = .ok () (fe c w) := assign_fe w hc

theorem assignZero_fe (x : BigNum.Num) : bnAssignZero x = .ok () (fe x.count (0 : ZMod p)) := by
  show EStateM.Result.ok () (⟨x.count, 0⟩ : BigNum.Num) = _
  rw [fe, ZMod.val_zero]

theorem fe_assignZero (v : ZMod p) : bnAssignZero (fe c v) = .ok () (fe c (0 : ZMod p)) :=
  assignZero_fe _

theorem assignDigit_fe {x : BigNum.Num} (e : Digit) (he : e ≠ 0) (h : e.toNat < p)
    (hc : x.count ≠ 0) : bnAssignDigit e he x = .ok () (fe x.count (e.toNat : ZMod p)) := by
  rw [← fe_eq h rfl]
  exact if_neg hc

theorem assignDigit_one_fe (h3 : 3 < p) {x : BigNum.Num} (hc : limbCount 64 p ≤ x.count)
    (h : (1 : Digit) ≠ 0) : bnAssignDigit 1 h x = .ok () (fe x.count (1 : ZMod p)) := by
  have := assignDigit_fe 1 h (show 1 < p by omega) (digits_pos h3 hc)
  rwa [show (1 : Digit).toNat = 1 from rfl, Nat.cast_one] at this

theorem fe_assignDigit_one (h3 : 3 < p) (v : ZMod p) (hc : limbCount 64 p ≤ c)
    (h : (1 : Digit) ≠ 0) : bnAssignDigit 1 h (fe c v) = .ok () (fe c (1 : ZMod p)) :=
  assignDigit_one_fe h3 hc h

theorem fe_init {bits : Nat} (h0 : bits ≠ 0) (hle : bits ≤ 2048) (x : BigNum.Num) :
    bnInit bits x = .ok () (fe ((bits + 63) / 64) (0 : ZMod p)) := by
  rw [fe, ZMod.val_zero]
  exact if_neg (show ¬(2048 < bits ∨ bits = 0) by omega)

theorem fe_new {σ : Type} (J : Junk) {bits : Nat} (h0 : bits ≠ 0) (hle : bits ≤ 2048) (s : σ) :
    (newBn J bits : EStateM Err σ BigNum.Num) s = .ok (fe ((bits + 63) / 64) (0 : ZMod p)) s := by
  rw [newBn_apply, fe_init (p := p) h0 hle, fold_ok]

/-! ## Arithmetic -/

theorem fe_modMult (J : Junk) (v w : ZMod p) (hs : Sizes p q d) :
    bnModMult J (.val (fe k w)) (.val ⟨q, p⟩) (fe d v) = .ok () (fe d (v * w)) := by
  rw [fe, fe, bnModMult_eq J (val_lt_p v) (val_lt_p w) hs.dbl]
  exact congrArg _ (fe_mod_eq (by simp))

theorem fe_modSquare (J : Junk) (v : ZMod p) (hs : Sizes p q d) :
    bnModSquare J (.val ⟨q, p⟩) (fe d v) = .ok () (fe d (v ^ 2)) := by
  rw [fe, bnModSquare_eq J (val_lt_p v) hs.dbl]
  exact congrArg _ (fe_mod_eq (by simp [pow_two]))

theorem fe_modMultDigit (J : Junk) (e : Digit) (v : ZMod p) (hs : Sizes p q d) :
    bnModMultDigit J e (.val ⟨q, p⟩) (fe d v) = .ok () (fe d ((e.toNat : ZMod p) * v)) := by
  rw [fe, bnModMultDigit_eq J e (val_lt_p v) hs.lt_dbl]
  exact congrArg _ (fe_mod_eq (by simp [mul_comm]))

theorem fe_modSub (J : Junk) (v w : ZMod p) (hc : limbCount 64 p ≤ c) :
    bnModSub J (.val (fe k w)) (.val ⟨q, p⟩) (fe c v) = .ok () (fe c (v - w)) := by
  have hp0 : p ≠ 0 := hp.out.ne_zero
  rw [fe, fe, bnModSub_eq J hp0 (Nat.le_of_lt (val_lt_p v)) (val_lt_p w) hc]
  have hcast := cast_sub_mod (m := p) (x := v.val) (Nat.le_of_lt (val_lt_p w))
  rw [ZMod.natCast_mod] at hcast
  exact congrArg _ (fe_mod_eq (by rw [hcast]; simp))

theorem fe_modNeg (J : Junk) (v : ZMod p) (hc : limbCount 64 p ≤ c) :
    bnModSub J (.val (fe k v)) (.val ⟨q, p⟩) (⟨c, p⟩ : BigNum.Num) = .ok () (fe c (-v)) := by
  have hcast := cast_sub_mod (m := p) (x := p) (Nat.le_of_lt (val_lt_p v))
  rw [ZMod.natCast_mod] at hcast
  rw [fe, bnModSub_eq J hp.out.ne_zero le_rfl (val_lt_p v) hc]
  exact congrArg _ (fe_mod_eq (by rw [hcast]; simp))

theorem fe_modAdd (v w : ZMod p) (hs : Sizes p q d) :
    bnModAdd (.val (fe k w)) (.val ⟨q, p⟩) (fe d v) = .ok () (fe d (v + w)) := by
  have hroom := four_mul_le_cap hs.lt_dbl
  rw [fe, fe, bnModAdd_eq (val_lt_p v) (val_lt_p w) (by omega)]
  exact congrArg _ (fe_mod_eq (by simp))

theorem fe_modExpDigit (J : Junk) {e : Nat} (he : e < 2 ^ 64) (v : ZMod p) (hs : Sizes p q d) :
    bnModExpDigit J e (.val ⟨q, p⟩) (fe d v) = .ok () (fe d (v ^ e)) := by
  rw [fe, bnModExpDigit_eq J he hp.out.one_lt (val_lt_p v) hs.q_le hs.dbl]
  exact congrArg _ (fe_mod_eq (by simp))

theorem odd_p (hs : Sizes p q d) : p % 2 = 1 := by
  have h3 := hs.three_lt
  rcases hp.out.eq_two_or_odd with h | h
  · omega
  · exact h

theorem fe_modInv (J : Junk) {v : ZMod p} (hv : v ≠ 0) (hs : Sizes p q d)
    (hc : limbCount 64 p ≤ c) :
    bnModInv J (.val ⟨q, p⟩) (fe c v) = .ok () (fe c v⁻¹) := by
  have hv0 : v.val ≠ 0 := (ZMod.val_ne_zero v).mpr hv
  have hcop : Nat.Coprime v.val p := by
    apply Nat.Coprime.symm
    rw [hp.out.coprime_iff_not_dvd]
    exact Nat.not_dvd_of_pos_of_lt (Nat.pos_of_ne_zero hv0) (val_lt_p v)
  obtain ⟨r, hrun, hr, hinv⟩ := bnModInv_eq (q := q) J (odd_p hs) hs.digits_le hv0 (val_lt_p v)
    hcop hc
  rw [fe, hrun]
  refine congrArg _ (fe_eq hr ?_)
  rw [ZMod.natCast_zmod_val] at hinv
  exact eq_inv_of_mul_eq_one_left (show (r : ZMod p) * v = 1 from hinv)

theorem two_ne_zero_p (h3 : 3 < p) : (2 : ZMod p) ≠ 0 := by
  intro h
  have h2 : ((2 : Nat) : ZMod p) = 0 := by exact_mod_cast h
  rw [ZMod.natCast_eq_zero_iff] at h2
  exact absurd (Nat.le_of_dvd (by decide) h2) (by omega)

end

end Curve
