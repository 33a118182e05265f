import Liblcb.BigNum.Inverses
import Liblcb.Lib.Barrett

/-!
# Barrett reduction

`bn_mod` as it is compiled with `BN_MOD_REDUCE_ALGO_BARRETT`.  It copies digits, sets `digits` by
hand and cuts the rest to the length of the modulus, so its records are not normalised on the way:
the proofs follow the number in the first digits of an array, whatever `digits` says.
-/

namespace BigNum

open Limbs StateErr ByValue

namespace Bn

/-- `bn_mod_rd_data_init`: an action on `mod_rd_data->Barrett`. -/
def bnModRdDataInit (J : Junk) (m : Bn) : BnM Bn Unit := do
  bnInit (64 * 2 * (m.digits + 1))
  bnBitSet (64 * 2 * m.digits) true
  let _ ← bnDiv J (.val m) .null
  pure ()

/-- `memcpy` of `n` digits of `src` from digit `off` on, which become the digits of `b`. -/
def copyDigits (b src : Bn) (off n : Nat) : Bn :=
  { b.write ((src.num.toList.drop off).take n) with digits := n }

/-- The loop behind the cut of `r`. -/
def subtractLoop (m : Bn) : Nat → BnM Bn Unit
  | 0 => throw .noReturn
  | fuel + 1 => do
    let r ← get
    if bnCmp r m = .lt then pure ()
    else do
      let _ ← bnSub (.val m)
      subtractLoop m fuel

/-- `bn_mod` with `BN_MOD_REDUCE_ALGO_BARRETT`; `rd` is what `mod_rd_data` points to. -/
def bnModBarrett (J : Junk) (m : Arg Bn) (rd : Option Bn) : BnM Bn Unit := do
  let bn ← get
  match rd with
  | none => do
    let _ ← bnDiv (J 0) m .self
    pure ()
  | some mu =>
    if mu.digits = 0 then do
      let _ ← bnDiv (J 0) m .self
      pure ()
    else if bnCmp bn (m.get bn) = .lt then pure ()
    else do
      let m := m.get bn
      let q ← exec (uninit (J 1)) (bnInit (64 * 2 * (m.digits + 6)))
      let r ← exec (uninit (J 2)) (bnInit (64 * 2 * (m.digits + 4)))
      let q := q.copyDigits bn (m.digits - 1) (bn.digits - (m.digits - 1))
      let r := r.copyDigits bn 0 (m.digits + 1)
      let q ← exec q (bnMult (J 3) (.val mu))
      let q ← exec q (bnRShift (64 * (m.digits + 1)))
      let q ← exec q (bnMult (J 4) (.val m))
      let q := { q with digits := m.digits + 1 }
      let r := { r with digits := q.digits }
      let r := if bnCmp r q = .lt then { r.setDig r.digits 1 with digits := r.digits + 1 } else r
      let r ← exec r (bnSub (.val q))
      -- a digit has 2^64 values, so the loop takes no more rounds
      let r ← exec { r with digits := m.digits } (subtractLoop m (2 ^ 64))
      bnAssign (.val r)

/-! ## Digits in use or not -/

/-- The number in the first `k` digits of the array. -/
def low (k : Nat) (b : Bn) : Nat := Limbs.val (b.num.toList.take k)

theorem low_lt {k : Nat} (hk : k ≤ 32) (b : Bn) : b.low k < 2 ^ (64 * k) := by
  have hlt := val_lt (b.num.toList.take k)
  rwa [List.length_take, b.num.length_toList, Nat.min_eq_left hk] at hlt

theorem low_mod {k n : Nat} (hk : k ≤ n) (b : Bn) : b.low n % 2 ^ (64 * k) = b.low k := by
  rw [low, ← val_take, List.take_take, Nat.min_eq_left hk, low]

theorem low_write (b : Bn) {l : List Digit} (hl : l.length ≤ 32) {k : Nat} (hk : k ≤ l.length) :
    (b.write l).low k = Limbs.val l % 2 ^ (64 * k) := by
  rw [low, take_write b hl hk, val_take]

theorem bnUpdateDigits_count (b : Bn) (k : Nat) : (b.bnUpdateDigits k).count = b.count := by
  unfold bnUpdateDigits
  split_ifs <;> rfl

theorem low_bnUpdateDigits (b : Bn) (n k : Nat) : (b.bnUpdateDigits n).low k = b.low k := by
  unfold bnUpdateDigits
  split_ifs <;> rfl

theorem value_bnUpdateDigits {b : Bn} (hd : b.digits ≤ b.count) (hc : b.count ≤ 32) (n : Nat) :
    (b.bnUpdateDigits n).value = b.low (b.updateSpan n) :=
  congrArg Num.val (bnUpdateDigits_spec hd hc n).2

theorem wf_of_value {b : Bn} (hd : b.digits ≤ b.count) (hc : b.count ≤ 32)
    (h : 2 ^ (64 * (b.digits - 1)) ≤ b.value) : b.WF := by
  refine ⟨hd, hc, ?_⟩
  by_cases h0 : b.digits = 0
  · exact Or.inl h0
  · right
    intro htop
    have hlow := low_lt (k := b.digits - 1) (by omega) b
    rw [value, sig_concat (Nat.pos_of_ne_zero h0) (by omega), htop, val_append, val_cons, val_nil]
      at h
    simp only [BitVec.ofNat_eq_ofNat, BitVec.toNat_ofNat, Nat.zero_mod, Nat.mul_zero,
      Nat.add_zero] at h
    exact absurd hlow (Nat.not_lt.mpr h)

theorem bnCmp_of_digits {a b : Bn} (hd : a.digits = b.digits) (h32 : a.digits ≤ 32) :
    bnCmp a b = compare a.value b.value := by
  rw [bnCmp, if_neg (not_not.mpr hd)]
  exact bnDigitsCmp_eq (by rw [length_sig h32, length_sig (hd ▸ h32), hd])

/-! ## The operations on them -/

theorem copyDigits_sig (b : Bn) {src : Bn} {off n : Nat} (hn : off + n ≤ 32) :
    (b.copyDigits src off n).sig = (src.num.toList.drop off).take n := by
  have hlen : ((src.num.toList.drop off).take n).length = n := by
    rw [List.length_take, List.length_drop, src.num.length_toList]
    omega
  show (b.write _).num.toList.take n = _
  rw [take_write b (by omega) (by omega), List.take_of_length_le (by omega)]

theorem copyDigits_top (b : Bn) {src : Bn} (hsrc : src.WF) (off : Nat) (hoff : off < src.digits)
    (hroom : src.digits - off ≤ b.count) (hc : b.count ≤ 32) :
    (b.copyDigits src off (src.digits - off)).WF ∧
      (b.copyDigits src off (src.digits - off)).value = src.value / 2 ^ (64 * off) := by
  have h32 := hsrc.digits_le_32
  have hval : (b.copyDigits src off (src.digits - off)).value = src.value / 2 ^ (64 * off) := by
    rw [value, copyDigits_sig b (by omega), ← List.drop_take, val_drop]
    rfl
  refine ⟨wf_of_value hroom hc ?_, hval⟩
  rw [hval, Nat.le_div_iff_mul_le (Nat.two_pow_pos _), ← Nat.pow_add]
  have hpos : src.digits - 1 < limbCount 64 src.value := by
    rw [← hsrc.digits_eq]
    omega
  have htop := (lt_limbCount_iff (by decide) _ _).mp hpos
  refine le_trans (Nat.pow_le_pow_right (by decide) ?_) htop
  show 64 * (src.digits - off - 1) + 64 * off ≤ 64 * (src.digits - 1)
  omega

theorem copyDigits_low (b src : Bn) {n : Nat} (hn : n ≤ 32) :
    (b.copyDigits src 0 n).value = src.low n := by
  rw [value, copyDigits_sig b (by omega), List.drop_zero, low]

theorem bnMult_low (J : Junk) {b n : Bn} (hb : b.WF) (hn : n.WF) (hb0 : b.digits ≠ 0)
    (hn0 : n.digits ≠ 0) (hfit : b.digits + n.digits ≤ b.count) :
    ∃ t, bnMult J (.val n) b = .ok () t ∧ t.WF ∧ t.count = b.count ∧
      t.value = b.value * n.value ∧ t.low (b.digits + n.digits) = b.value * n.value := by
  have hnum : Num.bnMult J (.val n.abs) b.abs = .ok () ⟨b.count, b.value * n.value⟩ := by
    refine ByValue.bnMult_val J ?_
    rwa [← hb.digits_eq, ← hn.digits_eq]
  obtain ⟨t, ht, habs, hwf⟩ := (bnMult_refines J (argWF_val hn)).ok hb hnum
  have hval : t.value = b.value * n.value := congrArg Num.val habs
  refine ⟨t, ht, hwf, congrArg Num.count habs, hval, ?_⟩
  -- the last step counts the digits of an array that is full of them
  obtain ⟨x, hx, hxd, hxc⟩ : ∃ x : Bn, bnMult J (.val n) b =
      .ok () (x.bnUpdateDigits (b.digits + n.digits)) ∧ x.digits = 0 ∧ x.count = b.count :=
    ⟨_, (if_neg (show ¬(b.digits = 0 ∨ n.digits = 0) by omega)).trans (if_neg (not_lt.mpr hfit)),
      by simp, by simp⟩
  rw [hx] at ht
  injection ht with _ ht
  have hspan : x.updateSpan (b.digits + n.digits) = b.digits + n.digits := by
    unfold updateSpan
    split <;> omega
  have hc := hb.count_le
  rw [← hval, ← ht, low_bnUpdateDigits, value_bnUpdateDigits (by omega) (by omega), hspan]

theorem bnRShift_low {b : Bn} (hb : b.WF) (bits : Nat) (hb0 : b.digits ≠ 0)
    (hbits : bits ≤ 64 * b.digits) :
    ∃ t, bnRShift bits b = .ok () t ∧ t.WF ∧ t.count = b.count ∧
      t.value = b.value / 2 ^ bits ∧ t.low b.digits = b.value / 2 ^ bits := by
  have hval0 : b.value ≠ 0 := fun h => hb0 (hb.digits_eq_zero.mpr h)
  have hnum : Num.bnRShift bits b.abs = .ok () ⟨b.count, b.value / 2 ^ bits⟩ := by
    refine (if_neg hval0).trans (if_neg ?_)
    rw [abs_val, ← hb.digits_eq]
    omega
  obtain ⟨t, ht, habs, hwf⟩ := (bnRShift_refines bits).ok hb hnum
  have hval : t.value = b.value / 2 ^ bits := congrArg Num.val habs
  refine ⟨t, ht, hwf, congrArg Num.count habs, hval, ?_⟩
  obtain ⟨l, hl, -, -⟩ := bnDigitsRShift_ok (a := b.sig) bits (by rwa [hb.length_sig])
  simp only [bnRShift, if_neg hb0, hl] at ht
  injection ht with _ ht
  have hspan : (b.write l).updateSpan b.digits = b.digits := by
    have hd := hb.digits_le
    unfold updateSpan
    rw [write_count, write_digits]
    split <;> omega
  rw [← hval, ← ht, low_bnUpdateDigits,
    value_bnUpdateDigits (b := b.write l) hb.digits_le hb.count_le, hspan]

theorem bnSub_low {b n : Bn} (hb : b.digits ≤ b.count) (hc : b.count ≤ 32)
    (hn : n.digits ≤ b.digits) (hle : n.value ≤ b.value) :
    ∃ c t, bnSub (.val n) b = .ok c t ∧ t.count = b.count ∧
      t.low b.digits = b.value - n.value := by
  unfold bnSub bnSubInt
  simp only
  generalize (if b.digits < n.digits ∨ (b.digits = n.digits ∧
    (b.digits = 0 ∨ b.dig (b.digits - 1) ≤ n.dig (b.digits - 1))) then b.count
    else b.digits) = k
  have hlen := length_take_count hc (b.bnInitDigits k)
  have hnlen := length_sig (b := n) (by omega)
  have hlow : (b.bnInitDigits k).low b.count % 2 ^ (64 * b.digits) = b.value := by
    rw [low_mod hb, low, bnInitDigits_val_take hb hc k le_rfl (Nat.le_max_left _ _)]
  obtain ⟨r, hr, hrlen, hrval⟩ := bnDigitsSub_ok
    (a := (b.bnInitDigits k).num.toList.take b.count) (b := n.sig) (by omega)
  rw [bnInitDigits_count, hr]
  refine ⟨_, _, rfl, ?_, ?_⟩
  · rw [bnUpdateDigits_count, write_count, bnInitDigits_count]
  · rw [low_bnUpdateDigits, low_write _ (by omega) (by omega)]
    have hrlt := val_lt r.1
    have hble : b.value ≤ (b.bnInitDigits k).low b.count := hlow ▸ Nat.mod_le _ _
    rw [hrlen, hlen] at hrlt
    rw [hlen] at hrval
    change _ + n.value = (b.bnInitDigits k).low b.count + _ at hrval
    -- there is no borrow from the digits above
    have hborrow : r.2.toNat = 0 := by
      by_contra hne
      have := Nat.le_mul_of_pos_right (2 ^ (64 * b.count)) (Nat.pos_of_ne_zero hne)
      omega
    rw [hborrow, Nat.mul_zero, Nat.add_zero] at hrval
    have hdiv := Nat.mod_add_div ((b.bnInitDigits k).low b.count) (2 ^ (64 * b.digits))
    rw [hlow] at hdiv
    have hlt : b.value < 2 ^ (64 * b.digits) := hlow ▸ Nat.mod_lt _ (Nat.two_pow_pos _)
    rw [show Limbs.val r.1 = b.value - n.value + 2 ^ (64 * b.digits) *
      ((b.bnInitDigits k).low b.count / 2 ^ (64 * b.digits)) by omega, Nat.add_mul_mod_self_left,
      Nat.mod_eq_of_lt (by omega)]

/-! ## The reciprocal -/

theorem bnInit_digits {k : Nat} (hk : k ≠ 0) (h32 : k ≤ 32) (b : Bn) :
    bnInit (64 * k) b = .ok () { b with count := k, digits := 0 } := by
  have hcount : (64 * k + 63) / 64 = k := by omega
  refine (if_neg (show ¬(2048 < 64 * k ∨ 64 * k = 0) by omega)).trans ?_
  rw [hcount]
  exact if_neg (by omega)

/-- `bn_mod_rd_data_init` returns 0 for a modulus of at most 15 digits, with the reciprocal. -/
theorem bnModRdDataInit_spec (J : Junk) {m : Bn} (hm : m.WF) (hm0 : m.digits ≠ 0) (raw : Bn) :
    (m.digits ≤ 15 → ∃ mu, bnModRdDataInit J m raw = .ok () mu ∧ mu.WF ∧
      mu.value = 2 ^ (64 * (2 * m.digits)) / m.value) ∧
    (15 < m.digits → ∃ t, bnModRdDataInit J m raw = .error .einval t) := by
  constructor
  · intro h15
    have hinit := bnInit_digits (k := 2 * (m.digits + 1)) (by omega) (by omega) raw
    have hzero : Bn.WF { raw with count := 2 * (m.digits + 1), digits := 0 } :=
      ⟨Nat.zero_le _, by show 2 * (m.digits + 1) ≤ 32; omega, Or.inl rfl⟩
    -- the power of two that is divided, and the quotient
    have hset : Num.bnBitSet (64 * 2 * m.digits) true
        (abs { raw with count := 2 * (m.digits + 1), digits := 0 }) =
          .ok () ⟨2 * (m.digits + 1), 2 ^ (64 * (2 * m.digits))⟩ := by
      refine (if_neg ?_).trans ?_
      · show ¬2 * (m.digits + 1) ≤ 64 * 2 * m.digits / 64
        omega
      · rw [if_pos rfl, abs_val, hzero.digits_eq_zero.mp rfl, Nat.zero_or, abs_count,
          Nat.mul_assoc]
    obtain ⟨x, hx, hxabs, hxwf⟩ := (bnBitSet_refines _ _).ok hzero hset
    have hxval : x.value = 2 ^ (64 * (2 * m.digits)) := congrArg Num.val hxabs
    have hlt : m.value < x.value := by
      rw [hxval]
      exact hm.value_lt.trans_le (Nat.pow_le_pow_right (by decide) (by omega))
    have hdiv : Num.bnDiv J (.val m.abs) .null x.abs =
        .ok none ⟨2 * (m.digits + 1), 2 ^ (64 * (2 * m.digits)) / m.value⟩ := by
      rw [hxabs]
      refine ByValue.bnDiv_null J ?_ (hxval ▸ hlt) ?_
      · exact fun h => hm0 (hm.digits_eq_zero.mpr h)
      · have hle : limbCount 64 (2 ^ (64 * (2 * m.digits))) ≤ 2 * m.digits + 1 :=
          (limbCount_le_iff (by decide) _ _).mpr (Nat.pow_lt_pow_right (by decide) (by omega))
        omega
    obtain ⟨hrun, hwf, -⟩ := bnDiv_refines J (argWF_val hm) (show RemWF .null from nofun) x hxwf
    rw [hdiv] at hrun
    cases hres : bnDiv J (.val m) .null x with
    | ok a t =>
      rw [hres] at hrun hwf
      injection hrun with _ habs
      refine ⟨t, ?_, hwf, congrArg Num.val habs⟩
      rw [bnModRdDataInit, Nat.mul_assoc, bind_of_ok hinit, bind_of_ok hx, bind_of_ok hres,
        pure_apply]
    | error e t =>
      rw [hres] at hrun
      cases hrun
  · intro h15
    -- a reciprocal of more than 32 digits has no room
    by_cases hbits : 2048 < 64 * 2 * (m.digits + 1) ∨ 64 * 2 * (m.digits + 1) = 0
    · have herr : bnInit (64 * 2 * (m.digits + 1)) raw = .error .einval raw := if_pos hbits
      exact ⟨raw, by rw [bnModRdDataInit, bind_of_error herr]⟩
    · omega

/-! ## The loop -/

theorem subtractLoop_wf {m : Bn} (hm : m.WF) (hm0 : m.value ≠ 0) (fuel : Nat) {r : Bn} (hr : r.WF)
    (hfuel : r.value / m.value < fuel) :
    ∃ t, subtractLoop m fuel r = .ok () t ∧ t.WF ∧ t.value = r.value % m.value := by
  induction fuel generalizing r with
  | zero => exact absurd hfuel (Nat.not_lt_zero _)
  | succ fuel ih =>
    rw [subtractLoop, bind_of_ok (get_apply _), bnCmp_eq hr hm]
    by_cases hlt : r.value < m.value
    · rw [ite_apply_pos (Nat.compare_eq_lt.mpr hlt), pure_apply]
      exact ⟨r, rfl, hr, (Nat.mod_eq_of_lt hlt).symm⟩
    · have hge := not_lt.mp hlt
      obtain ⟨t, ht, habs, hwf⟩ := (bnSub_refines (argWF_val hm)).ok hr
        (ByValue.bnSub_of_le (k := m.count) hge hr.value_lt_cap)
      have hval : t.value = r.value - m.value := congrArg Num.val habs
      have hround : t.value / m.value < fuel := by
        rw [Nat.div_eq_sub_div (Nat.pos_of_ne_zero hm0) hge, ← hval] at hfuel
        omega
      obtain ⟨t', ht', hwf', hval'⟩ := ih hwf hround
      refine ⟨t', ?_, hwf', ?_⟩
      · rw [ite_apply_neg fun h => hlt (Nat.compare_eq_lt.mp h), bind_of_ok ht, ht']
      · rw [hval', hval, ← Nat.mod_eq_sub_mod hge]

/-- What is left in `bn`: a rest below the modulus with all the digits of the modulus, or a
normalised remainder. -/
def Leftover (m : Bn) (v : Nat) (t : Bn) : Prop :=
  (v < m.value → t.digits = m.digits ∧ t.value = v) ∧
    (m.value ≤ v → t.WF ∧ t.value = v % m.value)

theorem subtractLoop_assign {m : Bn} (hm : m.WF) (hm0 : m.digits ≠ 0) {r b : Bn} (hb : b.WF)
    (hr : r.digits = m.digits) (hrc : r.digits ≤ r.count) (hr32 : r.count ≤ 32)
    (hbm : m.digits ≤ b.count) :
    ∃ r' t, subtractLoop m (2 ^ 64) r = .ok () r' ∧ bnAssign (.val r') b = .ok () t ∧
      Leftover m r.value t := by
  have hval0 : m.value ≠ 0 := fun h => hm0 (hm.digits_eq_zero.mpr h)
  have htop : 2 ^ (64 * (m.digits - 1)) ≤ m.value := by
    apply (lt_limbCount_iff (by decide) _ _).mp
    rw [← hm.digits_eq]
    omega
  by_cases hlt : r.value < m.value
  · have hloop : subtractLoop m (2 ^ 64) r = .ok () r := by
      rw [show (2 : Nat) ^ 64 = (2 ^ 64 - 1) + 1 by decide, subtractLoop, bind_of_ok (get_apply _),
        bnCmp_of_digits hr (by omega), ite_apply_pos (Nat.compare_eq_lt.mpr hlt), pure_apply]
    have hlen := length_sig (b := r) (by omega)
    have hassign : bnAssign (.val r) b = .ok () { b.write r.sig with digits := r.digits } :=
      if_neg (by omega)
    refine ⟨r, _, hloop, hassign, fun _ => ⟨hr, ?_⟩, fun hge => absurd hlt (Nat.not_lt.mpr hge)⟩
    show Limbs.val ((b.write r.sig).num.toList.take r.digits) = r.value
    rw [take_write b (by omega) (by omega), List.take_of_length_le (by omega), value]
  · have hge := not_lt.mp hlt
    have hrwf : r.WF := wf_of_value hrc hr32 (by rw [hr]; exact htop.trans hge)
    have hrounds : r.value / m.value < 2 ^ 64 := by
      apply Nat.div_lt_of_lt_mul
      calc r.value < 2 ^ (64 * r.digits) := hrwf.value_lt
        _ = 2 ^ (64 * (m.digits - 1)) * 2 ^ 64 := by
            rw [← Nat.pow_add, hr]
            congr 1
            omega
        _ ≤ m.value * 2 ^ 64 := Nat.mul_le_mul_right _ htop
    obtain ⟨r', hloop, hwf', hval'⟩ := subtractLoop_wf hm hval0 _ hrwf hrounds
    have hfit : limbCount 64 r'.value ≤ b.count := by
      refine le_trans (limbCount_mono (by decide) ?_) (hm.digits_eq ▸ hbm)
      rw [hval']
      exact Nat.le_of_lt (Nat.mod_lt _ (Nat.pos_of_ne_zero hval0))
    obtain ⟨t, ht, habs, hwf⟩ := (bnAssign_refines (argWF_val hwf')).ok hb
      (ByValue.bnAssign_val (k := r'.count) hfit)
    have hval : t.value = r.value % m.value := (congrArg Num.val habs).trans hval'
    exact ⟨r', t, hloop, ht, fun h => absurd h hlt, fun _ => ⟨hwf, hval⟩⟩

/-! ## The quotient -/

/-- The estimate that `bn_mod` makes of `b / m`. -/
def quotient (m b : Bn) : Nat :=
  Barrett.estimate (2 ^ (64 * (m.digits - 1))) (2 ^ (64 * (m.digits + 1))) m.value b.value

section

variable {m b mu : Bn}

/-- The sizes `bn_mod` works with, for a number that is not below its modulus. -/
structure Sizes (m b mu : Bn) : Prop where
  modulus : m.WF
  number : b.WF
  data : mu.WF
  pos : m.digits ≠ 0
  le : m.value ≤ b.value
  square : b.digits ≤ 2 * m.digits
  recip : mu.value = 2 ^ (64 * (2 * m.digits)) / m.value

theorem Sizes.top (h : Sizes m b mu) : 2 ^ (64 * (m.digits - 1)) ≤ m.value := by
  apply (lt_limbCount_iff (by decide) _ _).mp
  rw [← h.modulus.digits_eq]
  have := h.pos
  omega

theorem Sizes.digits_le (h : Sizes m b mu) : m.digits ≤ b.digits := by
  rw [h.modulus.digits_eq, h.number.digits_eq]
  exact limbCount_mono (by decide) h.le

theorem Sizes.split (h : Sizes m b mu) :
    2 ^ (64 * (m.digits - 1)) * 2 ^ (64 * (m.digits + 1)) = 2 ^ (64 * (2 * m.digits)) := by
  rw [← Nat.pow_add]
  congr 1
  have := h.pos
  omega

theorem Sizes.value_lt (h : Sizes m b mu) : b.value < 2 ^ (64 * (2 * m.digits)) :=
  h.number.value_lt.trans_le (Nat.pow_le_pow_right (by decide) (Nat.mul_le_mul_left _ h.square))

theorem Sizes.le_recip (h : Sizes m b mu) : 2 ^ (64 * m.digits) ≤ mu.value := by
  have hm0 : 0 < m.value := (Nat.two_pow_pos _).trans_le h.top
  rw [h.recip, Nat.le_div_iff_mul_le hm0]
  calc 2 ^ (64 * m.digits) * m.value ≤ 2 ^ (64 * m.digits) * 2 ^ (64 * m.digits) :=
        Nat.mul_le_mul_left _ (Nat.le_of_lt h.modulus.value_lt)
    _ = 2 ^ (64 * (2 * m.digits)) := by
        rw [← Nat.pow_add]
        congr 1
        omega

theorem Sizes.recip_digits (h : Sizes m b mu) : mu.digits ≤ m.digits + 2 := by
  rw [h.data.digits_eq, limbCount_le_iff (by decide), h.recip]
  apply Nat.div_lt_of_lt_mul
  calc 2 ^ (64 * (2 * m.digits)) = 2 ^ (64 * (m.digits - 1)) * 2 ^ (64 * (m.digits + 1)) :=
        h.split.symm
    _ ≤ m.value * 2 ^ (64 * (m.digits + 1)) := Nat.mul_le_mul_right _ h.top
    _ < m.value * 2 ^ (64 * (m.digits + 2)) :=
        Nat.mul_lt_mul_of_pos_left (Nat.pow_lt_pow_right (by decide) (by omega))
          ((Nat.two_pow_pos _).trans_le h.top)

theorem Sizes.quotient_eq (h : Sizes m b mu) : quotient m b =
    b.value / 2 ^ (64 * (m.digits - 1)) * mu.value / 2 ^ (64 * (m.digits + 1)) := by
  rw [quotient, Barrett.estimate, h.split, h.recip]

theorem Sizes.quotient_lt (h : Sizes m b mu) : quotient m b < 2 ^ (64 * (m.digits + 1)) := by
  have hle := Barrett.estimate_mul_le (2 ^ (64 * (m.digits - 1))) (2 ^ (64 * (m.digits + 1)))
    m.value b.value
  change quotient m b * m.value ≤ b.value at hle
  apply Nat.lt_of_mul_lt_mul_right (a := 2 ^ (64 * (m.digits - 1)))
  calc quotient m b * 2 ^ (64 * (m.digits - 1)) ≤ quotient m b * m.value :=
        Nat.mul_le_mul_left _ h.top
    _ ≤ b.value := hle
    _ < 2 ^ (64 * (2 * m.digits)) := h.value_lt
    _ = 2 ^ (64 * (m.digits + 1)) * 2 ^ (64 * (m.digits - 1)) := by rw [← h.split, Nat.mul_comm]

/-- The multiple of `m` that `bn_mod` takes off, in the digits it looks at. -/
theorem quotient_run (J J' : Junk) (h : Sizes m b mu) (h10 : m.digits ≤ 10) {q : Bn}
    (hq : q.count = 2 * (m.digits + 6)) :
    ∃ q1 q2 q3, bnMult J (.val mu)
        (q.copyDigits b (m.digits - 1) (b.digits - (m.digits - 1))) = .ok () q1 ∧
      bnRShift (64 * (m.digits + 1)) q1 = .ok () q2 ∧ bnMult J' (.val m) q2 = .ok () q3 ∧
      q3.low (m.digits + 1) = quotient m b * m.value % 2 ^ (64 * (m.digits + 1)) := by
  have hpos := h.pos
  have hle := h.digits_le
  have hsq := h.square
  have hmu2 := h.recip_digits
  have hrecip := h.le_recip
  obtain ⟨hq0, hq0val⟩ := copyDigits_top q h.number (m.digits - 1) (by omega) (by omega)
    (by omega)
  generalize hx : q.copyDigits b (m.digits - 1) (b.digits - (m.digits - 1)) = x at hq0 hq0val ⊢
  have hxd : x.digits = b.digits - (m.digits - 1) := by rw [← hx]; rfl
  have hxc : x.count = 2 * (m.digits + 6) := by rw [← hq, ← hx]; rfl
  have hx0 : x.digits ≠ 0 := by omega
  have hxval0 : 0 < x.value := Nat.pos_of_ne_zero fun h0 => hx0 (hq0.digits_eq_zero.mpr h0)
  have hmu0 : mu.digits ≠ 0 := by
    intro h0
    rw [h.data.digits_eq_zero.mp h0] at hrecip
    exact absurd hrecip (Nat.not_le.mpr (Nat.two_pow_pos _))
  obtain ⟨q1, hq1, hq1wf, hq1c, hq1val, -⟩ := bnMult_low J hq0 h.data hx0 hmu0 (by omega)
  -- the product is longer than the shift
  have hq1d : m.digits + 1 ≤ q1.digits := by
    have hlong : m.digits < limbCount 64 q1.value := by
      rw [lt_limbCount_iff (by decide), hq1val]
      exact hrecip.trans (Nat.le_mul_of_pos_left _ hxval0)
    rw [hq1wf.digits_eq]
    omega
  obtain ⟨q2, hq2, hq2wf, hq2c, hq2val, hq2low⟩ := bnRShift_low hq1wf (64 * (m.digits + 1))
    (by omega) (by omega)
  have hest : q1.value / 2 ^ (64 * (m.digits + 1)) = quotient m b := by
    rw [h.quotient_eq, hq1val, hq0val]
  rw [hest] at hq2val hq2low
  by_cases h0 : q2.digits = 0
  · -- all the digits behind the shift are zero
    have hquot : quotient m b = 0 := hq2val.symm.trans (hq2wf.digits_eq_zero.mp h0)
    have hmult : bnMult J' (.val m) q2 = .ok () { q2 with digits := 0 } := if_pos (Or.inl h0)
    refine ⟨q1, q2, _, hq1, hq2, hmult, ?_⟩
    show q2.low (m.digits + 1) = _
    rw [← low_mod hq1d, hq2low, hquot, Nat.zero_mul]
  · have hq2d : q2.digits ≤ m.digits + 1 := by
      rw [hq2wf.digits_eq, limbCount_le_iff (by decide), hq2val]
      exact h.quotient_lt
    obtain ⟨q3, hq3, -, -, -, hq3low⟩ := bnMult_low J' hq2wf h.modulus h0 hpos (by omega)
    refine ⟨q1, q2, q3, hq1, hq2, hq3, ?_⟩
    rw [← low_mod (show m.digits + 1 ≤ q2.digits + m.digits by omega), hq3low, hq2val]

/-! ## The rest -/

/-- What the estimate leaves of `b`. -/
def rest (m b : Bn) : Nat :=
  Barrett.rest (2 ^ (64 * (m.digits - 1))) (2 ^ (64 * (m.digits + 1))) m.value b.value

theorem value_setDig {r : Bn} (hr : r.digits < 32) :
    value { r.setDig r.digits 1 with digits := r.digits + 1 } =
      r.value + 2 ^ (64 * r.digits) := by
  have hlen := length_sig (b := r) (by omega)
  have hcat := sig_concat (b := { r.setDig r.digits 1 with digits := r.digits + 1 })
    (Nat.succ_pos _) (Nat.succ_le_of_lt hr)
  have hlow : (r.num.toList.set r.digits 1).take r.digits = r.sig := by
    rw [List.take_set, List.set_eq_of_length_le (by rw [List.length_take]; omega), sig]
  have htop : (r.num.toList.set r.digits 1).getD r.digits 0 = 1 := by
    rw [List.getD_eq_getElem?_getD, List.getElem?_set_self (by rwa [r.num.length_toList])]
    rfl
  rw [value, hcat]
  show Limbs.val ((r.num.toList.set r.digits 1).take r.digits ++
    [(r.num.toList.set r.digits 1).getD r.digits 0]) = _
  rw [hlow, htop, val_append, hlen]
  simp [value]

/-- The low digits of the difference are those of the rest, whatever the copy of `b` took along. -/
theorem rest_run (h : Sizes m b mu) (h10 : m.digits ≤ 10) {q r : Bn}
    (hr : r.count = 2 * (m.digits + 4))
    (hq : q.low (m.digits + 1) = quotient m b * m.value % 2 ^ (64 * (m.digits + 1)))
    {r0 r1 q' : Bn} (hq' : q' = { q with digits := m.digits + 1 })
    (hr0 : r0 = { r.copyDigits b 0 (m.digits + 1) with digits := m.digits + 1 })
    (hr1 : r1 = if bnCmp r0 q' = .lt then { r0.setDig r0.digits 1 with digits := r0.digits + 1 }
      else r0) :
    ∃ c t, bnSub (.val q') r1 = .ok c t ∧ t.count = 2 * (m.digits + 4) ∧
      t.low m.digits = rest m b % 2 ^ (64 * m.digits) := by
  have hle := h.digits_le
  have hest := Barrett.estimate_mul_le (2 ^ (64 * (m.digits - 1))) (2 ^ (64 * (m.digits + 1)))
    m.value b.value
  change quotient m b * m.value ≤ b.value at hest
  have hpow : 2 ^ (64 * m.digits) ∣ 2 ^ (64 * (m.digits + 1)) := Nat.pow_dvd_pow 2 (by omega)
  have hqval : q'.value = quotient m b * m.value % 2 ^ (64 * (m.digits + 1)) := by
    rw [← hq, hq']
    rfl
  have hr0val : r0.value = b.low (m.digits + 1) := by
    rw [hr0, ← copyDigits_low r b (by omega)]
    rfl
  have hr0d : r0.digits = m.digits + 1 := by rw [hr0]
  have hr0c : r0.count = 2 * (m.digits + 4) := by rw [hr0, ← hr]; rfl
  have hqd : q'.digits = m.digits + 1 := by rw [hq']
  have hcong : r0.value ≡ b.value [MOD 2 ^ (64 * m.digits)] := by
    show r0.value % _ = b.value % _
    rw [hr0val, low_mod (by omega), value, sig, ← low, low_mod hle]
  have hqcong : q'.value ≡ quotient m b * m.value [MOD 2 ^ (64 * m.digits)] := by
    rw [hqval]
    exact Nat.mod_mod_of_dvd _ hpow
  -- the digit set above the copy is no part of the rest
  have hstep : r0.digits ≤ r1.digits ∧ r1.digits ≤ r0.digits + 1 ∧ r1.count = r0.count ∧
      q'.value ≤ r1.value ∧ r1.value ≡ b.value [MOD 2 ^ (64 * m.digits)] := by
    have hcmp : bnCmp r0 q' = .lt ↔ r0.value < q'.value := by
      rw [bnCmp_of_digits (hr0d.trans hqd.symm) (by omega), Nat.compare_eq_lt]
    by_cases hlt : r0.value < q'.value
    · have hval := value_setDig (r := r0) (by omega)
      have hqlt : q'.value < 2 ^ (64 * (m.digits + 1)) :=
        hqval ▸ Nat.mod_lt _ (Nat.two_pow_pos _)
      rw [hr1, if_pos (hcmp.mpr hlt)]
      refine ⟨Nat.le_succ _, le_rfl, rfl, ?_, ?_⟩
      · rw [hval, hr0d]
        omega
      · rw [hval, hr0d]
        have hzero : 2 ^ (64 * (m.digits + 1)) ≡ 0 [MOD 2 ^ (64 * m.digits)] :=
          Nat.modEq_zero_iff_dvd.mpr hpow
        exact hcong.add hzero
    · rw [hr1, if_neg (hcmp.not.mpr hlt)]
      exact ⟨le_rfl, Nat.le_succ _, rfl, not_lt.mp hlt, hcong⟩
  obtain ⟨hd1, hd2, hc, hsub, hmod⟩ := hstep
  obtain ⟨c, t, ht, htc, htlow⟩ := bnSub_low (b := r1) (n := q') (by omega) (by omega) (by omega)
    hsub
  refine ⟨c, t, ht, by omega, ?_⟩
  rw [← low_mod (show m.digits ≤ r1.digits by omega), htlow]
  have hsum : r1.value - q'.value + q'.value ≡ rest m b + q'.value [MOD 2 ^ (64 * m.digits)] := by
    calc r1.value - q'.value + q'.value = r1.value := Nat.sub_add_cancel hsub
      _ ≡ b.value [MOD 2 ^ (64 * m.digits)] := hmod
      _ = rest m b + quotient m b * m.value := (Nat.sub_add_cancel hest).symm
      _ ≡ rest m b + q'.value [MOD 2 ^ (64 * m.digits)] := hqcong.symm.add_left _
  exact hsum.add_right_cancel' _

/-! ## The function -/

theorem Sizes.data_ne_zero (h : Sizes m b mu) : mu.digits ≠ 0 := by
  intro h0
  have hle := h.le_recip
  rw [h.data.digits_eq_zero.mp h0] at hle
  exact absurd hle (Nat.not_le.mpr (Nat.two_pow_pos _))

theorem Sizes.cmp_ne_lt (h : Sizes m b mu) : ¬bnCmp b m = .lt := by
  rw [bnCmp_eq h.number h.modulus, Nat.compare_eq_lt]
  exact Nat.not_lt.mpr h.le

theorem bnModBarrett_run (J : Junk) {m : Arg Bn} (h : Sizes (m.get b) b mu)
    (h10 : (m.get b).digits ≤ 10) :
    ∃ t, bnModBarrett J m (some mu) b = .ok () t ∧
      Leftover (m.get b) (rest (m.get b) b % 2 ^ (64 * (m.get b).digits)) t := by
  rw [bnModBarrett, bind_of_ok (get_apply _)]
  simp only
  rw [ite_apply_neg h.data_ne_zero, ite_apply_neg h.cmp_ne_lt]
  generalize m.get b = m at h h10 ⊢
  have hinit : ∀ k, k ≠ 0 → k ≤ 32 → ∀ x : Bn,
      bnInit (64 * k) x = .ok () { x with count := k, digits := 0 } :=
    fun k hk hk32 x => bnInit_digits hk hk32 x
  rw [Nat.mul_assoc, Nat.mul_assoc, exec_bind_of_ok (hinit _ (by omega) (by omega) _),
    exec_bind_of_ok (hinit _ (by omega) (by omega) _)]
  obtain ⟨q1, q2, q3, hq1, hq2, hq3, hlow⟩ := quotient_run (J 3) (J 4) h h10
    (q := { uninit (J 1) with count := 2 * (m.digits + 6), digits := 0 }) rfl
  obtain ⟨c, t, ht, htc, htlow⟩ := rest_run h h10
    (r := { uninit (J 2) with count := 2 * (m.digits + 4), digits := 0 }) rfl hlow rfl rfl rfl
  obtain ⟨r', t', hloop, hassign, hleft⟩ := subtractLoop_assign (b := b) (m := m)
    (r := { t with digits := m.digits }) h.modulus h.pos h.number rfl
    (by show m.digits ≤ t.count; omega) (by show t.count ≤ 32; omega)
    (h.digits_le.trans h.number.digits_le)
  refine ⟨t', ?_, htlow ▸ hleft⟩
  rw [exec_bind_of_ok hq1, exec_bind_of_ok hq2, exec_bind_of_ok hq3]
  refine (exec_bind_of_ok ht _ _).trans ?_
  rw [exec_bind_of_ok hloop, hassign]

theorem bnModBarrett_wide (J : Junk) {m : Arg Bn} (h : Sizes (m.get b) b mu)
    (h10 : 10 < (m.get b).digits) :
    bnModBarrett J m (some mu) b = .error .einval b := by
  rw [bnModBarrett, bind_of_ok (get_apply _)]
  simp only
  rw [ite_apply_neg h.data_ne_zero, ite_apply_neg h.cmp_ne_lt]
  have herr : bnInit (64 * 2 * ((m.get b).digits + 6)) (uninit (J 1)) =
      .error .einval (uninit (J 1)) := if_pos (Or.inl (by omega))
  apply bind_of_error
  rw [exec_apply, herr, fold_error]

theorem bnModBarrett_of_lt (J : Junk) {m : Arg Bn} (hm : (m.get b).WF) (hb : b.WF)
    (hmu : mu.digits ≠ 0) (hlt : b.value < (m.get b).value) :
    bnModBarrett J m (some mu) b = .ok () b := by
  rw [bnModBarrett, bind_of_ok (get_apply _)]
  simp only
  rw [ite_apply_neg hmu, ite_apply_pos, pure_apply]
  rw [bnCmp_eq hb hm, Nat.compare_eq_lt]
  exact hlt

theorem data_spec {J : Junk} {raw : Bn} (hm : m.WF) (hm0 : m.digits ≠ 0)
    (h : bnModRdDataInit J m raw = .ok () mu) :
    mu.WF ∧ mu.value = 2 ^ (64 * (2 * m.digits)) / m.value := by
  obtain ⟨hnarrow, hwide⟩ := bnModRdDataInit_spec J hm hm0 raw
  by_cases h15 : m.digits ≤ 15
  · obtain ⟨mu', hrun, hspec⟩ := hnarrow h15
    rw [h] at hrun
    injection hrun with _ hmu
    rwa [hmu]
  · obtain ⟨t, herr⟩ := hwide (not_le.mp h15)
    cases h.symm.trans herr

theorem bnMod_plain (J : Junk) {m : Arg Bn} (hm : m.WF) (hb : b.WF) (hm0 : (m.get b).value ≠ 0) :
    (Reduces b.count (m.get b).value b.value → ∃ t, bnMod J m b = .ok () t ∧ t.WF ∧
      t.value = b.value % (m.get b).value) ∧
    (¬Reduces b.count (m.get b).value b.value → ∃ t, bnMod J m b = .error .eoverflow t) := by
  -- `bn_div` on numbers reads its divisor before it writes
  have hget : bnMod J (m.map abs) b.abs = bnMod J (.val (m.get b).abs) b.abs := by
    cases m <;> rfl
  constructor
  · intro hred
    have hnum := hget.trans (bnMod_eq (q := (m.get b).count) J hm0 hred)
    obtain ⟨t, ht, habs, hwf⟩ := (bnMod_refines J hm).ok hb hnum
    exact ⟨t, ht, hwf, congrArg Num.val habs⟩
  · intro hred
    have hnum := hget.trans (bnMod_narrow (q := (m.get b).count) J hm0 hred)
    obtain ⟨t, ht, -⟩ := (bnMod_refines J hm).error hb hnum
    exact ⟨t, ht⟩

theorem bnCmp_eq_iff {x y : Bn} (h32 : x.digits ≤ 32) :
    bnCmp x y = .eq ↔ x.digits = y.digits ∧ x.value = y.value := by
  by_cases hd : x.digits = y.digits
  · rw [bnCmp_of_digits hd h32, Nat.compare_eq_eq]
    exact ⟨fun h => ⟨hd, h⟩, fun h => h.2⟩
  · rw [bnCmp, if_pos hd, Nat.compare_eq_eq]
    exact ⟨fun h => absurd h hd, fun h => absurd h.1 hd⟩

theorem Leftover.value_eq {v : Nat} {t : Bn} (h : Leftover m v t) : t.value = v % m.value := by
  by_cases hlt : v < m.value
  · rw [(h.1 hlt).2, Nat.mod_eq_of_lt hlt]
  · exact (h.2 (not_lt.mp hlt)).2

theorem Sizes.cut_iff (h : Sizes m b mu) :
    rest m b % 2 ^ (64 * m.digits) % m.value = b.value % m.value ↔
      rest m b < 2 ^ (64 * m.digits) := by
  have hpos := h.pos
  refine Barrett.rest_cut_iff h.top h.modulus.value_lt ?_ (by omega)
  rw [h.split]
  exact h.value_lt

theorem Sizes.cmp_iff (h : Sizes m b mu) {t t' : Bn}
    (ht : Leftover m (rest m b % 2 ^ (64 * m.digits)) t) (ht' : t'.WF)
    (hval : t'.value = b.value % m.value) :
    bnCmp t t' = .eq ↔ limbCount 64 (rest m b) = m.digits := by
  have hcut := h.cut_iff
  have hvalue := ht.value_eq
  have hmod : rest m b % m.value = b.value % m.value := Barrett.rest_mod _ _ _ _
  have hfits : limbCount 64 (rest m b) = m.digits → rest m b < 2 ^ (64 * m.digits) :=
    fun hd => (limbCount_le_iff (by decide) _ _).mp (Nat.le_of_eq hd)
  by_cases hlt : rest m b % 2 ^ (64 * m.digits) < m.value
  · obtain ⟨hd, -⟩ := ht.1 hlt
    rw [bnCmp_eq_iff (hd ▸ h.modulus.digits_le_32), hd, ht'.digits_eq, hvalue, hval, hcut]
    rw [Nat.mod_eq_of_lt hlt] at hvalue
    constructor
    · rintro ⟨hdig, hle⟩
      rw [Nat.mod_eq_of_lt hle] at hlt
      rw [hdig, ← hmod, Nat.mod_eq_of_lt hlt]
    · intro hdig
      have hle := hfits hdig
      rw [Nat.mod_eq_of_lt hle] at hlt
      exact ⟨by rw [← hmod, Nat.mod_eq_of_lt hlt, hdig], hle⟩
  · obtain ⟨hwf, -⟩ := ht.2 (not_lt.mp hlt)
    rw [bnCmp_eq hwf ht', Nat.compare_eq_eq, hvalue, hval, hcut]
    refine ⟨fun hle => le_antisymm ((limbCount_le_iff (by decide) _ _).mpr hle) ?_, hfits⟩
    rw [Nat.mod_eq_of_lt hle] at hlt
    rw [h.modulus.digits_eq]
    exact limbCount_mono (by decide) (not_lt.mp hlt)

end

/-- With the data of `bn_mod_rd_data_init`, `bn_mod` ends, and a call that returns 0 leaves the
remainder. -/
structure BarrettExact (J J' : Junk) (raw : Bn) (m : Arg Bn) (b : Bn) : Prop where
  ends : ∀ mu t, bnModRdDataInit J (m.get b) raw = .ok () mu →
    bnModBarrett J' m (some mu) b ≠ .error .noReturn t
  value : ∀ mu t, bnModRdDataInit J (m.get b) raw = .ok () mu →
    bnModBarrett J' m (some mu) b = .ok () t → t.value = b.value % (m.get b).value

/-- Where both return 0, `bn_cmp` finds no difference to what the plain `bn_mod` leaves. -/
def BarrettAgree (J J' J'' : Junk) (raw : Bn) (m : Arg Bn) (b : Bn) : Prop :=
  ∀ mu t t', bnModRdDataInit J (m.get b) raw = .ok () mu →
    bnModBarrett J' m (some mu) b = .ok () t → bnMod J'' m b = .ok () t' → bnCmp t t' = .eq

section

variable {m : Arg Bn} {b : Bn} (J J' J'' : Junk) (raw : Bn)

theorem sizes_of_data (hm : m.WF) (hb : b.WF) (hpos : (m.get b).digits ≠ 0)
    (hsq : b.digits ≤ 2 * (m.get b).digits) (hle : (m.get b).value ≤ b.value) {mu : Bn}
    (hmu : bnModRdDataInit J (m.get b) raw = .ok () mu) : Sizes (m.get b) b mu := by
  obtain ⟨hwf, hval⟩ := data_spec (hm.get hb) hpos hmu
  exact ⟨hm.get hb, hb, hwf, hpos, hle, hsq, hval⟩

theorem data_digits_ne_zero (hm : m.WF) (hb : b.WF) (hpos : (m.get b).digits ≠ 0) {mu : Bn}
    (hmu : bnModRdDataInit J (m.get b) raw = .ok () mu) : mu.digits ≠ 0 := by
  have hm := hm.get hb
  obtain ⟨hwf, hval⟩ := data_spec hm hpos hmu
  intro h0
  rw [hwf.digits_eq_zero.mp h0, eq_comm, Nat.div_eq_zero_iff] at hval
  rcases hval with hzero | hlt
  · exact hpos (hm.digits_eq_zero.mpr hzero)
  · have hpow : 2 ^ (64 * (m.get b).digits) ≤ 2 ^ (64 * (2 * (m.get b).digits)) :=
      Nat.pow_le_pow_right (by decide) (by omega)
    have := hm.value_lt
    omega

/-- The rest that the estimate leaves decides: it has to fit the digits of the modulus for the value
and to fill them for the record. -/
theorem barrett_iff (hm : m.WF) (hb : b.WF) (hpos : (m.get b).digits ≠ 0)
    (hsq : b.digits ≤ 2 * (m.get b).digits) :
    (BarrettExact J J' raw m b ↔ b.value < (m.get b).value ∨ 10 < (m.get b).digits ∨
        rest (m.get b) b < 2 ^ (64 * (m.get b).digits)) ∧
      (BarrettAgree J J' J'' raw m b ↔ b.value < (m.get b).value ∨ 10 < (m.get b).digits ∨
        ¬Reduces b.count (m.get b).value b.value ∨
          limbCount 64 (rest (m.get b) b) = (m.get b).digits) := by
  have hm0 : (m.get b).value ≠ 0 := fun h0 => hpos ((hm.get hb).digits_eq_zero.mpr h0)
  obtain ⟨hplain, hfail⟩ := bnMod_plain J'' hm hb hm0
  by_cases hlt : b.value < (m.get b).value
  · -- the number stays, and it is normalised
    have hrun : ∀ mu, bnModRdDataInit J (m.get b) raw = .ok () mu →
        bnModBarrett J' m (some mu) b = .ok () b := fun mu hmu =>
      bnModBarrett_of_lt J' (hm.get hb) hb (data_digits_ne_zero J raw hm hb hpos hmu) hlt
    refine ⟨iff_of_true ⟨fun mu t hmu ht => ?_, fun mu t hmu ht => ?_⟩ (Or.inl hlt),
      iff_of_true (fun mu t t' hmu ht ht' => ?_) (Or.inl hlt)⟩
    · cases ht.symm.trans (hrun mu hmu)
    · rw [hrun mu hmu] at ht
      injection ht with _ ht
      rw [← ht, Nat.mod_eq_of_lt hlt]
    · obtain ⟨x, hx, hwf, hval⟩ := hplain (Or.inl hlt)
      rw [hrun mu hmu] at ht
      rw [hx] at ht'
      injection ht with _ ht
      injection ht' with _ ht'
      rw [← ht, ← ht', bnCmp_eq hb hwf, Nat.compare_eq_eq, hval, Nat.mod_eq_of_lt hlt]
  have hle := not_lt.mp hlt
  have hsizes : ∀ mu, bnModRdDataInit J (m.get b) raw = .ok () mu → Sizes (m.get b) b mu :=
    fun mu hmu => sizes_of_data J raw hm hb hpos hsq hle hmu
  by_cases h10 : 10 < (m.get b).digits
  · -- the locals do not fit
    have hrun := fun mu hmu => bnModBarrett_wide J' (hsizes mu hmu) h10
    refine ⟨iff_of_true ⟨fun mu t hmu ht => ?_, fun mu t hmu ht => ?_⟩ (Or.inr (Or.inl h10)),
      iff_of_true (fun mu t t' hmu ht ht' => ?_) (Or.inr (Or.inl h10))⟩
    all_goals cases ht.symm.trans (hrun mu hmu)
  have h10 := not_lt.mp h10
  obtain ⟨mu, hmu, -⟩ := (bnModRdDataInit_spec J (hm.get hb) hpos raw).1 (h10.trans (by decide))
  have hs := hsizes mu hmu
  obtain ⟨t, ht, hleft⟩ := bnModBarrett_run J' hs h10
  have hone : ∀ mu', bnModRdDataInit J (m.get b) raw = .ok () mu' → mu' = mu := by
    intro mu' hmu'
    rw [hmu] at hmu'
    injection hmu' with _ h
    exact h.symm
  have hvalue : t.value = b.value % (m.get b).value ↔
      rest (m.get b) b < 2 ^ (64 * (m.get b).digits) := by
    rw [hleft.value_eq, hs.cut_iff]
  constructor
  · rw [or_iff_right hlt, or_iff_right (not_lt.mpr h10)]
    constructor
    · intro h
      exact hvalue.mp (h.value mu t hmu ht)
    · intro hrest
      refine ⟨fun mu' x hmu' hx => ?_, fun mu' x hmu' hx => ?_⟩
      · rw [hone mu' hmu'] at hx
        cases hx.symm.trans ht
      · rw [hone mu' hmu', ht] at hx
        injection hx with _ hx
        rw [← hx, hvalue.mpr hrest]
  · rw [or_iff_right hlt, or_iff_right (not_lt.mpr h10)]
    by_cases hred : Reduces b.count (m.get b).value b.value
    · obtain ⟨t', ht', hwf', hval'⟩ := hplain hred
      have hcmp := hs.cmp_iff hleft hwf' hval'
      rw [or_iff_right (not_not.mpr hred)]
      constructor
      · intro h
        exact hcmp.mp (h mu t t' hmu ht ht')
      · intro hdig mu' x x' hmu' hx hx'
        rw [hone mu' hmu', ht] at hx
        rw [ht'] at hx'
        injection hx with _ hx
        injection hx' with _ hx'
        rw [← hx, ← hx']
        exact hcmp.mpr hdig
    · -- the plain function does not return 0
      refine iff_of_true (fun mu' x x' hmu' hx hx' => ?_) (Or.inl hred)
      obtain ⟨y, hy⟩ := hfail hred
      cases hx'.symm.trans hy

end

/-- 9 modulo 7. -/
theorem barrett_nine :
    BarrettExact blank blank (oneDigit 1 1) (.val (oneDigit 1 7)) (oneDigit 2 9) ∧
      BarrettAgree blank blank blank (oneDigit 1 1) (.val (oneDigit 1 7)) (oneDigit 2 9) := by
  have h := barrett_iff blank blank blank (oneDigit 1 1) (m := .val (oneDigit 1 7))
    (b := oneDigit 2 9) (argWF_val (oneDigit_wf (by decide) (by decide) (by decide)))
    (oneDigit_wf (by decide) (by decide) (by decide)) (by decide) (by decide)
  exact ⟨h.1.mpr (by decide), h.2.mpr (Or.inr (Or.inr (Or.inr (by decide))))⟩

/-- The modulus `2^64 - 2^32 + 1` and a number whose rest is one modulus too long for one digit. -/
def longRest : Bn × Bn :=
  (oneDigit 1 0xffffffff00000001,
    ⟨2, 2, ⟨0xffffffffffffffff :: 0xfffffffe00000001 :: List.replicate 30 0, rfl⟩⟩)

/-- It is reduced to 0, where the remainder is `2^32 - 1`. -/
theorem not_forall_barrettExact :
    ¬ ∀ (J J' : Junk) (raw : Bn) (m : Arg Bn) (b : Bn), m.WF → b.WF → (m.get b).digits ≠ 0 →
      b.value < (m.get b).value ^ 2 → b.digits ≤ 2 * (m.get b).digits →
        BarrettExact J J' raw m b := by
  intro h
  have hm : longRest.1.WF := oneDigit_wf (by decide) (by decide) (by decide)
  have hb : longRest.2.WF := ⟨by decide, by decide, Or.inr (by decide)⟩
  have hexact := h blank blank (oneDigit 1 1) (.val longRest.1) longRest.2 (argWF_val hm) hb
    (by decide) (by decide) (by decide)
  obtain ⟨mu, hmu, hwf, hval⟩ := (bnModRdDataInit_spec blank hm (by decide) (oneDigit 1 1)).1
    (by decide)
  have hsizes : Sizes longRest.1 longRest.2 mu :=
    ⟨hm, hb, hwf, by decide, by decide, by decide, hval⟩
  obtain ⟨t, ht, hleft⟩ := bnModBarrett_run blank (m := .val longRest.1) hsizes (by decide)
  have hzero : t.value = 0 := by
    rw [hleft.value_eq]
    decide
  have hrem : t.value = 2 ^ 32 - 1 := by
    rw [hexact.value mu t hmu ht]
    decide
  rw [hzero] at hrem
  exact absurd hrem (by decide)

end Bn

end BigNum
