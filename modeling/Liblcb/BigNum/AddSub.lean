import Liblcb.BigNum.DivBounds
import Liblcb.BigNum.NumMod
import Liblcb.BigNum.ModHom

/-!
# Sums and differences

`bn_add`, `bn_sub` and their versions for a digit wrap at the capacity and report the carry.  As for
the division every digit access is compared to the `count` of its array; the one access that fails
is `num[digits - 1]` of `bn_sub` when no operand has digits.  The modular sum and difference are
built on them, and only the difference gives a lost carry back.
-/

namespace BigNum.Bn

open Limbs StateErr

/-! ## Accesses -/

def bnAddDigitChecked (n : Digit) : BnM Bn (Option Digit) := fun b =>
  if n = 0 then .ok none b
  else
    let digits := b.digits + 1
    (do
      change fun b => b.bnInitDigitsChecked digits
      let num ← look fun b => window b.count b.num.toList 0 b.count
      let r := bnDigitsAddDigit num n
      change fun b => b.store r.1
      change fun b => b.bnUpdateDigitsChecked digits
      pure (some r.2)) b

def bnAddChecked (n : Arg Bn) : BnM Bn Digit := fun b =>
  let n := n.get b
  let digits := max b.digits n.digits + 1
  (do
    change fun b => b.bnInitDigitsChecked digits
    let num ← look fun b => window b.count b.num.toList 0 b.count
    let sig ← look fun _ => window n.count n.num.toList 0 n.digits
    let r ← look fun _ => bnDigitsAdd num sig
    change fun b => b.store r.1
    change fun b => b.bnUpdateDigitsChecked digits
    pure r.2) b

def bnSubDigitChecked (n : Digit) : BnM Bn (Option Digit) := fun b =>
  if n = 0 then .ok none b
  else
    (do
      let below ← look fun b =>
        if b.digits = 0 then .ok true
        else if b.digits = 1 then do
          let low ← digitAt b.count b.num.toList 0
          .ok (decide (low < n))
        else .ok false
      let digits := if below then b.count else b.digits
      change fun b => b.bnInitDigitsChecked digits
      let num ← look fun b => window b.count b.num.toList 0 b.count
      let r := bnDigitsSubDigit num n
      change fun b => b.store r.1
      change fun b => b.bnUpdateDigitsChecked digits
      pure (some r.2)) b

def bnSubIntChecked (n : Bn) : BnM Bn Digit := fun b =>
  (do
    let below ← look fun b =>
      if b.digits < n.digits then .ok true
      else if b.digits = n.digits then do
        let top ← b.topDigit
        let top' ← n.topDigit
        .ok (decide (top ≤ top'))
      else .ok false
    let digits := if below then b.count else b.digits
    change fun b => b.bnInitDigitsChecked digits
    let num ← look fun b => window b.count b.num.toList 0 b.count
    let sig ← look fun _ => window n.count n.num.toList 0 n.digits
    let r ← look fun _ => bnDigitsSub num sig
    change fun b => b.store r.1
    change fun b => b.bnUpdateDigitsChecked digits
    pure r.2) b

/-- For `bn == n` the source clears `bn` and goes on to the comparison of the top digits. -/
def bnSubChecked (n : Arg Bn) : BnM Bn Digit := fun b =>
  match n with
  | .self =>
    let b := { b with digits := 0 }
    bnSubIntChecked b b
  | .val n => bnSubIntChecked n b

theorem storeUpdate_eq {b : Bn} (hd : b.digits ≤ b.count) {l : List Digit}
    (hl : l.length ≤ b.count) (digits : Nat) {α : Type} (a : α) :
    (do
      change fun b => b.store l
      change fun b => b.bnUpdateDigitsChecked digits
      pure a : BnM Bn α) b = .ok a ((b.write l).bnUpdateDigits digits) := by
  have hstore : b.store l = .ok (b.write l) := if_pos hl
  rw [bind_of_ok (change_ok hstore),
    bind_of_ok (change_ok (bnUpdateDigitsChecked_eq (b := b.write l) hd digits)), pure_apply]

theorem lookStoreUpdate_eq {b : Bn} (hd : b.digits ≤ b.count)
    {f : Except Err (List Digit × Digit)} (digits : Nat) :
    (∀ r, f = .ok r → r.1.length ≤ b.count) →
    (do
      let r ← look fun _ => f
      change fun b => b.store r.1
      change fun b => b.bnUpdateDigitsChecked digits
      pure r.2 : BnM Bn Digit) b =
    match f with
    | .error e => .error e b
    | .ok r => .ok r.2 ((b.write r.1).bnUpdateDigits digits) := by
  intro hf
  cases f with
  | error e => rfl
  | ok r => exact storeUpdate_eq hd (hf r rfl) digits r.2

theorem length_bnDigitsAdd {a b : List Digit} {r : List Digit × Digit}
    (h : bnDigitsAdd a b = .ok r) : r.1.length = a.length := by
  by_cases hlen : b.length ≤ a.length
  · obtain ⟨r', hr', hl, -⟩ := bnDigitsAdd_ok hlen
    rw [hr'] at h
    cases h
    exact hl
  · rw [bnDigitsAdd_error (by omega)] at h
    cases h

theorem length_bnDigitsSub {a b : List Digit} {r : List Digit × Digit}
    (h : bnDigitsSub a b = .ok r) : r.1.length = a.length := by
  by_cases hlen : b.length ≤ a.length
  · obtain ⟨r', hr', hl, -⟩ := bnDigitsSub_ok hlen
    rw [hr'] at h
    cases h
    exact hl
  · rw [bnDigitsSub_error (by omega)] at h
    cases h

theorem bnAddDigitChecked_eq (n : Digit) {b : Bn} (hb : b.WF) :
    bnAddDigitChecked n b = bnAddDigit n b := by
  rw [bnAddDigitChecked, bnAddDigit]
  by_cases hn : n = 0
  · rw [if_pos hn, if_pos hn]
  · have hinit := (bnInitDigits_wf hb (b.digits + 1)).1
    rw [if_neg hn, if_neg hn]
    simp only
    rw [bind_of_ok (change_ok (bnInitDigitsChecked_eq hb.digits_le _)),
      bind_of_ok (look_ok (window_zero _ le_rfl))]
    apply storeUpdate_eq hinit.digits_le
    rw [length_bnDigitsAddDigit]
    exact List.length_take_le _ _

theorem bnAddChecked_eq {n : Arg Bn} (hn : n.WF) {b : Bn} (hb : b.WF) :
    bnAddChecked n b = bnAdd n b := by
  have hy := hn.get hb
  simp only [bnAddChecked, bnAdd]
  generalize n.get b = y at hy
  have hinit := (bnInitDigits_wf hb (max b.digits y.digits + 1)).1
  rw [bind_of_ok (change_ok (bnInitDigitsChecked_eq hb.digits_le _)),
    bind_of_ok (look_ok (window_zero _ le_rfl)),
    bind_of_ok (look_ok (window_zero _ hy.digits_le))]
  apply lookStoreUpdate_eq hinit.digits_le
  intro r hr
  rw [length_bnDigitsAdd hr]
  exact List.length_take_le _ _

theorem bnSubDigitChecked_eq (n : Digit) {b : Bn} (hb : b.WF) :
    bnSubDigitChecked n b = bnSubDigit n b := by
  rw [bnSubDigitChecked, bnSubDigit]
  by_cases hn : n = 0
  · rw [if_pos hn, if_pos hn]
  · -- the test reads the only digit there is
    have hbelow : (if b.digits = 0 then (.ok true : Except Err Bool)
        else if b.digits = 1 then do
          let low ← digitAt b.count b.num.toList 0
          .ok (decide (low < n))
        else .ok false) = .ok (decide (b.digits = 0 ∨ (b.digits = 1 ∧ b.dig 0 < n))) := by
      have hdc := hb.digits_le
      by_cases h0 : b.digits = 0
      · simp [h0]
      · by_cases h1 : b.digits = 1
        · rw [if_neg h0, if_pos h1, digitAt, if_pos (by omega)]
          simp only [h1, true_and, one_ne_zero, false_or]
          rfl
        · simp [h0, h1]
    have hinit := fun k => (bnInitDigits_wf hb k).1
    rw [if_neg hn, if_neg hn, bind_of_ok (look_ok hbelow)]
    simp only [decide_eq_true_eq]
    rw [bind_of_ok (change_ok (bnInitDigitsChecked_eq hb.digits_le _)),
      bind_of_ok (look_ok (window_zero _ le_rfl))]
    apply storeUpdate_eq (hinit _).digits_le
    rw [length_bnDigitsSubDigit]
    exact List.length_take_le _ _

theorem bnSubIntChecked_eq {y : Bn} (hy : y.WF) {b : Bn} (hb : b.WF)
    (h0 : ¬(b.digits = 0 ∧ y.digits = 0)) : bnSubIntChecked y b = bnSubInt y b := by
  have hdc := hb.digits_le
  have hdy := hy.digits_le
  have hbelow : (if b.digits < y.digits then (.ok true : Except Err Bool)
      else if b.digits = y.digits then do
        let top ← b.topDigit
        let top' ← y.topDigit
        .ok (decide (top ≤ top'))
      else .ok false) = .ok (decide (b.digits < y.digits ∨ (b.digits = y.digits ∧
        (b.digits = 0 ∨ b.dig (b.digits - 1) ≤ y.dig (b.digits - 1))))) := by
    by_cases hlt : b.digits < y.digits
    · simp [hlt]
    · by_cases heq : b.digits = y.digits
      · have hpos : b.digits ≠ 0 := fun h => h0 ⟨h, heq ▸ h⟩
        rw [if_neg hlt, if_pos heq, topDigit_eq (by omega) hdc, topDigit_eq (by omega) hdy, ← heq]
        simp only [lt_irrefl, true_and, hpos, false_or]
        rfl
      · simp [hlt, heq]
  have hinit := fun k => (bnInitDigits_wf hb k).1
  rw [bnSubIntChecked, bnSubInt, bind_of_ok (look_ok hbelow)]
  simp only [decide_eq_true_eq]
  rw [bind_of_ok (change_ok (bnInitDigitsChecked_eq hb.digits_le _)),
    bind_of_ok (look_ok (window_zero _ le_rfl)),
    bind_of_ok (look_ok (window_zero _ hdy))]
  apply lookStoreUpdate_eq (hinit _).digits_le
  intro r hr
  rw [length_bnDigitsSub hr]
  exact List.length_take_le _ _

theorem bnSubIntChecked_zero {y b : Bn} (hb : b.digits = 0) (hy : y.digits = 0) :
    bnSubIntChecked y b = .error .undef b := by
  rw [bnSubIntChecked, bind_of_error]
  rw [look, hb, hy, if_neg (lt_irrefl 0), if_pos rfl, topDigit, if_pos hb]
  rfl

/-! ## Values and carries -/

/-- A call on `b` with an operand of `digits` digits leaves `value` with the carry 1 exactly when
`over`, refuses an operand that does not fit with the value kept, and accesses no digit outside its
arrays.  `carry` reads `*carry` off what the call returns. -/
structure Exact {α : Type} (run checked : EStateM.Result Err Bn α) (carry : α → Digit) (b : Bn)
    (digits value : Nat) (wraps : Prop) : Prop where
  returns : digits ≤ b.count → ∃ a t, run = .ok a t ∧ t.value = value ∧ (carry a = 1 ↔ wraps)
  refuses : b.count < digits → ∃ t, run = .error .eoverflow t ∧ t.value = b.value
  inside : ∀ t, checked ≠ .error .undef t

/-- `bn_add` is exact. -/
def AddExact (n : Arg Bn) (b : Bn) : Prop :=
  Exact (bnAdd n b) (bnAddChecked n b) id b (n.get b).digits
    ((b.value + (n.get b).value) % b.abs.cap) (b.abs.cap ≤ b.value + (n.get b).value)

/-- `bn_sub` is exact. -/
def SubExact (n : Arg Bn) (b : Bn) : Prop :=
  Exact (bnSub n b) (bnSubChecked n b) id b (n.get b).digits
    ((b.value + b.abs.cap - (n.get b).value) % b.abs.cap) (b.value < (n.get b).value)

/-- `bn_add_digit` is exact, where `*carry` held `carry` before. -/
def AddDigitExact (d carry : Digit) (b : Bn) : Prop :=
  Exact (bnAddDigit d b) (bnAddDigitChecked d b) (·.getD carry) b 1
    ((b.value + d.toNat) % b.abs.cap) (b.abs.cap ≤ b.value + d.toNat)

/-- `bn_sub_digit` is exact, where `*borrow` held `carry` before. -/
def SubDigitExact (d carry : Digit) (b : Bn) : Prop :=
  Exact (bnSubDigit d b) (bnSubDigitChecked d b) (·.getD carry) b 1
    ((b.value + b.abs.cap - d.toNat) % b.abs.cap) (b.value < d.toNat)

theorem exact_of_refines {α : Type} {f : BnM Bn α} {g : BnM Num α} (h : Refines f g)
    {checked : EStateM.Result Err Bn α} {carry : α → Digit} {b : Bn} (hb : b.WF)
    {digits value : Nat} {wraps : Prop} (hchk : checked = f b)
    (hok : digits ≤ b.count → ∃ a, g b.abs = .ok a ⟨b.count, value⟩ ∧ (carry a = 1 ↔ wraps))
    (herr : b.count < digits → g b.abs = .error .eoverflow b.abs) :
    Exact (f b) checked carry b digits value wraps := by
  have hrun := (h b hb).1
  constructor
  · intro hfit
    obtain ⟨a, hg, hcarry⟩ := hok hfit
    obtain ⟨t, ht, habs, -⟩ := h.ok hb hg
    exact ⟨a, t, ht, congrArg Num.val habs, hcarry⟩
  · intro hover
    rw [herr hover] at hrun
    cases hf : f b with
    | ok a t =>
      rw [hf] at hrun
      cases hrun
    | error e t =>
      rw [hf, mapRes_error] at hrun
      injection hrun with he ht
      exact ⟨t, by rw [he], congrArg Num.val ht⟩
  · rintro t ht
    rw [hchk] at ht
    rw [ht, mapRes_error] at hrun
    rcases Nat.lt_or_ge b.count digits with hover | hfit
    · rw [herr hover] at hrun
      cases hrun
    · obtain ⟨a, hg, -⟩ := hok hfit
      rw [hg] at hrun
      cases hrun

theorem ofNat_div_eq_one {v k : Nat} (hk : 0 < k) (hv : v < 2 * k) :
    BitVec.ofNat 64 (v / k) = 1 ↔ k ≤ v := by
  have hlt : v / k < 2 := (Nat.div_lt_iff_lt_mul hk).mpr hv
  have hone : k ≤ v ↔ v / k = 1 := by
    rw [← Nat.one_le_div_iff hk]
    omega
  rw [hone, ← BitVec.toNat_inj, BitVec.toNat_ofNat, Nat.mod_eq_of_lt (by omega)]
  rfl

theorem ite_eq_one (p : Prop) [Decidable p] : (if p then (1 : Digit) else 0) = 1 ↔ p := by
  by_cases hp : p <;> simp [hp]

theorem bnAdd_exact {n : Arg Bn} (hn : n.WF) {b : Bn} (hb : b.WF) : AddExact n b := by
  have hy := hn.get hb
  apply exact_of_refines (bnAdd_refines hn) hb (bnAddChecked_eq hn hb)
  · intro hfit
    rw [hy.digits_eq] at hfit
    have hlt : (n.get b).value < 2 ^ (64 * b.count) := (limbCount_le_iff (by decide) _ _).mp hfit
    have hbound : b.value + (n.get b).value < 2 * 2 ^ (64 * b.count) := by
      have := hb.value_lt_cap
      omega
    refine ⟨_, ?_, ofNat_div_eq_one (Nat.two_pow_pos _) hbound⟩
    rw [Num.bnAdd, Arg.get_map]
    exact if_neg (not_lt.mpr hfit)
  · intro hover
    rw [hy.digits_eq] at hover
    rw [Num.bnAdd, Arg.get_map]
    exact if_pos hover

theorem bnSub_exact_iff {n : Arg Bn} (hn : n.WF) {b : Bn} (hb : b.WF) :
    SubExact n b ↔ ∃ y, n = .val y ∧ ¬(b.value = 0 ∧ y.value = 0) := by
  cases n with
  | self =>
    constructor
    · intro h
      -- `bn` is cleared first, so the comparison finds no digits
      exact absurd (bnSubIntChecked_zero rfl rfl) (h.inside _)
    · rintro ⟨y, hy, -⟩
      cases hy
  | val y =>
    have hy := hn y rfl
    constructor
    · intro h
      refine ⟨y, rfl, ?_⟩
      rintro ⟨hb0, hy0⟩
      exact h.inside _ (bnSubIntChecked_zero (hb.digits_eq_zero.mpr hb0)
        (hy.digits_eq_zero.mpr hy0))
    · rintro ⟨_, ⟨⟩, h0⟩
      rw [← hb.digits_eq_zero, ← hy.digits_eq_zero] at h0
      apply exact_of_refines (bnSub_refines hn) hb (bnSubIntChecked_eq hy hb h0)
      · intro hfit
        rw [Arg.get_val, hy.digits_eq] at hfit
        exact ⟨_, if_neg (not_lt.mpr hfit), ite_eq_one _⟩
      · intro hover
        rw [Arg.get_val, hy.digits_eq] at hover
        exact if_pos hover

theorem exact_none_iff {b : Bn} (hc : 0 < b.count) (carry : Digit) {value : Nat} {wraps : Prop}
    (hv : value = b.value) (hover : ¬wraps) :
    Exact (.ok none b) (.ok none b) (·.getD carry) b 1 value wraps ↔ carry ≠ 1 := by
  constructor
  · rintro h rfl
    obtain ⟨a, t, hrun, -, hcarry⟩ := h.returns hc
    injection hrun with ha
    subst ha
    exact hover (hcarry.mp rfl)
  · intro hcarry
    constructor
    · intro _
      exact ⟨none, b, rfl, hv.symm, iff_of_false hcarry hover⟩
    · intro hlt
      omega
    · rintro t ⟨⟩

theorem bnAddDigit_exact_iff (d carry : Digit) {b : Bn} (hb : b.WF) (hc : 0 < b.count) :
    AddDigitExact d carry b ↔ d ≠ 0 ∨ carry ≠ 1 := by
  have hvlt := hb.value_lt_cap
  have hc0 : b.abs.count ≠ 0 := Nat.pos_iff_ne_zero.mp hc
  by_cases hd : d = 0
  · subst hd
    rw [show ((0 : Digit) ≠ 0 ∨ carry ≠ 1) ↔ carry ≠ 1 by simp]
    exact exact_none_iff hc carry (Nat.mod_eq_of_lt hvlt) (not_le.mpr hvlt)
  · have hdlt : d.toNat < 2 ^ (64 * b.count) :=
      d.isLt.trans_le (Nat.pow_le_pow_right (by decide) (by omega))
    have hbound : b.value + d.toNat < 2 * 2 ^ (64 * b.count) := by omega
    refine iff_of_true ?_ (Or.inl hd)
    apply exact_of_refines (bnAddDigit_refines d) hb (bnAddDigitChecked_eq d hb)
    · intro _
      rw [Num.bnAddDigit, if_neg hd, if_neg hc0]
      exact ⟨_, rfl, ofNat_div_eq_one (Nat.two_pow_pos _) hbound⟩
    · intro hover
      omega

theorem bnSubDigit_exact_iff (d carry : Digit) {b : Bn} (hb : b.WF) (hc : 0 < b.count) :
    SubDigitExact d carry b ↔ d ≠ 0 ∨ carry ≠ 1 := by
  have hvlt := hb.value_lt_cap
  have hc0 : b.abs.count ≠ 0 := Nat.pos_iff_ne_zero.mp hc
  by_cases hd : d = 0
  · subst hd
    rw [show ((0 : Digit) ≠ 0 ∨ carry ≠ 1) ↔ carry ≠ 1 by simp]
    refine exact_none_iff hc carry ?_ (Nat.not_lt_zero _)
    exact (Nat.add_mod_right _ _).trans (Nat.mod_eq_of_lt hvlt)
  · refine iff_of_true ?_ (Or.inl hd)
    apply exact_of_refines (bnSubDigit_refines d) hb (bnSubDigitChecked_eq d hb)
    · intro _
      rw [Num.bnSubDigit, if_neg hd, if_neg hc0]
      exact ⟨_, rfl, ite_eq_one _⟩
    · intro hover
      omega

/-- What `bn_add`, `bn_sub` and their digit versions do on one set of operands. -/
structure AddSubExact (n : Arg Bn) (d carry : Digit) (b : Bn) : Prop where
  add : AddExact n b
  sub : SubExact n b
  addDigit : AddDigitExact d carry b
  subDigit : SubDigitExact d carry b

/-- All four are exact when `bn_sub` gets two numbers that are not both zero, and the digit is not
zero unless `*carry` was not 1 before the call. -/
theorem addSubExact_iff {n : Arg Bn} (hn : n.WF) (d carry : Digit) {b : Bn} (hb : b.WF)
    (hc : 0 < b.count) :
    AddSubExact n d carry b ↔
      (∃ y, n = .val y ∧ ¬(b.value = 0 ∧ y.value = 0)) ∧ (d ≠ 0 ∨ carry ≠ 1) := by
  constructor
  · intro h
    exact ⟨(bnSub_exact_iff hn hb).mp h.sub, (bnAddDigit_exact_iff d carry hb hc).mp h.addDigit⟩
  · rintro ⟨hsub, hdigit⟩
    exact ⟨bnAdd_exact hn hb, (bnSub_exact_iff hn hb).mpr hsub,
      (bnAddDigit_exact_iff d carry hb hc).mpr hdigit,
      (bnSubDigit_exact_iff d carry hb hc).mpr hdigit⟩

/-- 3 + 5 and 3 - 5 on one digit. -/
theorem addSubExact_three : AddSubExact (.val (oneDigit 1 5)) 7 0 (oneDigit 1 3) := by
  have h5 : (oneDigit 1 5).WF := oneDigit_wf (by decide) (by decide) (by decide)
  have h3 : (oneDigit 1 3).WF := oneDigit_wf (by decide) (by decide) (by decide)
  apply (addSubExact_iff (argWF_val h5) 7 0 h3 (by decide)).mpr
  refine ⟨⟨_, rfl, ?_⟩, Or.inl (by decide)⟩
  decide

/-- `bn_sub` of zero from zero reads `num[-1]`: it is not exact for every pair of numbers. -/
theorem not_forall_addSubExact :
    ¬ ∀ (n : Arg Bn) (d carry : Digit) (b : Bn), n.WF → b.WF → 0 < b.count →
      AddSubExact n d carry b := by
  intro h
  have hzero : (⟨1, 0, blank.array⟩ : Bn).WF := wf_zero_digits (b := ⟨1, 0, blank.array⟩) (by decide)
  have hsub := (h (.val ⟨1, 0, blank.array⟩) 1 0 ⟨1, 0, blank.array⟩ (argWF_val hzero) hzero
    (by decide)).sub
  exact hsub.inside _ (bnSubIntChecked_zero rfl rfl)

end BigNum.Bn

/-! ## Modular sums and differences -/

namespace BigNum.ByValue

open Limbs StateErr BnOps

variable {c k q a b m : Nat}

theorem bnModAdd_wraps (ha : a < m) (hb : b < m) (hc : limbCount 64 m ≤ c) :
    bnModAdd (.val ⟨k, b⟩) (.val ⟨q, m⟩) (⟨c, a⟩ : Num) = .ok () ⟨c,
      if a + b < 2 ^ (64 * c) then (a + b) % m else a + b - 2 ^ (64 * c)⟩ := by
  have hmcap := lt_cap_of_limbCount_le hc
  simp only [bnModAdd, bind_apply, bnAdd_val (limbCount_le_of_lt hb hc), fold_ok, get_apply,
    onlyIf_apply, bnCmp_eq, Arg.get_val]
  by_cases hfit : a + b < 2 ^ (64 * c)
  · rw [Nat.mod_eq_of_lt hfit, if_pos hfit]
    by_cases hlt : a + b < m
    · rw [Nat.compare_eq_lt.mpr hlt, Nat.mod_eq_of_lt hlt]
      rfl
    · have hcmp : compare (a + b) m ≠ .lt := fun h => hlt (Nat.compare_eq_lt.mp h)
      rw [if_pos hcmp, bnSub_of_le (by omega) hfit, fold_ok, pure_apply,
        Nat.mod_eq_sub_mod (by omega), Nat.mod_eq_of_lt (by omega)]
  · -- what is left of the sum is below `m`, so nothing more is subtracted
    have hwrap : a + b - 2 ^ (64 * c) < m := by omega
    rw [if_neg hfit, Nat.mod_eq_sub_mod (by omega),
      Nat.mod_eq_of_lt (show a + b - 2 ^ (64 * c) < 2 ^ (64 * c) by omega),
      Nat.compare_eq_lt.mpr hwrap]
    rfl

theorem bnModAdd_get (n m : Arg Num) (x : Num) :
    bnModAdd n m x = bnModAdd (.val (n.get x)) m x := by
  cases n <;> rfl

theorem bnModSub_get (J : Junk) {n : Arg Num} (m : Arg Num) (ha : a < 2 ^ (64 * c)) :
    bnModSub J n m (⟨c, a⟩ : Num) = bnModSub J (.val (n.get ⟨c, a⟩)) m ⟨c, a⟩ := by
  cases n with
  | val y => rfl
  | self =>
    have hsub : bnSub (.self : Arg Num) (⟨c, a⟩ : Num) = .ok 0 ⟨c, 0⟩ := rfl
    have hcmp : ¬compare a a = .lt := by simp
    simp only [bnModSub, bind_apply, get_apply, fold_ok, onlyIf_apply, bnCmp_eq, Arg.get_val,
      Arg.get_self, if_neg hcmp]
    rw [bnSub_of_le le_rfl ha, hsub, Nat.sub_self]

end BigNum.ByValue

namespace BigNum.Bn

open Limbs StateErr ByValue

/-- The calls that return leave the sum and the difference modulo `m`. -/
structure ModAddSubExact (J : Junk) (n m : Arg Bn) (b : Bn) : Prop where
  add : ∀ t, bnModAdd n m b = .ok () t →
    t.value = (b.value + (n.get b).value) % (m.get b).value ∧ t.value < (m.get b).value
  sub : ∀ t, bnModSub J n m b = .ok () t →
    (t.value : Int) = (b.value - (n.get b).value) % (m.get b).value ∧ t.value < (m.get b).value

theorem cast_sub_emod {x y m : Nat} (hy : y ≤ m) :
    (((x + (m - y)) % m : Nat) : Int) = ((x : Int) - y) % m := by
  rw [Int.natCast_mod, Nat.cast_add, Nat.cast_sub hy,
    show (x : Int) + (m - y) = x - y + m by omega, Int.add_emod_right]

/-- The modular difference is right for every capacity that holds `m`; the modular sum is right
exactly when the plain sum fits the capacity. -/
theorem modAddSubExact_iff (J : Junk) {n : Arg Bn} (hn : n.WF) {m : Bn} (hm : m.WF) {b : Bn}
    (hb : b.WF) (hbm : b.value < m.value) (hnm : (n.get b).value < m.value)
    (hc : m.digits ≤ b.count) :
    ModAddSubExact J n (.val m) b ↔ b.value + (n.get b).value < 2 ^ (64 * b.count) := by
  have hmwf := argWF_val hm
  rw [hm.digits_eq] at hc
  have hadd := (bnModAdd_refines hn hmwf b hb).1
  have hsub := (bnModSub_refines J hn hmwf b hb).1
  rw [bnModAdd_get, Arg.get_map] at hadd
  rw [show b.abs = ⟨b.count, b.value⟩ from rfl, bnModSub_get J _ hb.value_lt_cap,
    show (⟨b.count, b.value⟩ : Num) = b.abs from rfl, Arg.get_map] at hsub
  have haddv := hadd.trans (bnModAdd_wraps (k := (n.get b).count) (q := m.count) hbm hnm hc)
  have hsubv := hsub.trans (bnModSub_eq (k := (n.get b).count) (q := m.count) J (by omega)
    (Nat.le_of_lt hbm) hnm hc)
  have hmcap : m.value < 2 ^ (64 * b.count) := lt_cap_of_limbCount_le hc
  constructor
  · intro h
    by_contra hover
    rw [if_neg hover] at haddv
    -- the call returns, with the sum less its lost carry
    cases hrun : bnModAdd n (.val m) b with
    | error e t =>
      rw [hrun] at haddv
      cases haddv
    | ok u t =>
      have hres := (h.add t hrun).1
      rw [hrun, mapRes_ok] at haddv
      injection haddv with _ ht
      have hval : t.value = b.value + (n.get b).value - 2 ^ (64 * b.count) := congrArg Num.val ht
      rw [hval, Arg.get_val, Nat.mod_eq_sub_mod (by omega), Nat.mod_eq_of_lt (by omega)] at hres
      omega
  · intro hfit
    constructor
    · intro t ht
      rw [ht, mapRes_ok, if_pos hfit] at haddv
      injection haddv with _ ht
      have hval : t.value = (b.value + (n.get b).value) % m.value := congrArg Num.val ht
      exact ⟨hval, hval ▸ Nat.mod_lt _ (by omega)⟩
    · intro t ht
      rw [ht, mapRes_ok] at hsubv
      injection hsubv with _ ht
      have hval : t.value = (b.value + (m.value - (n.get b).value)) % m.value := congrArg Num.val ht
      refine ⟨?_, hval ▸ Nat.mod_lt _ (by omega)⟩
      rw [hval, cast_sub_emod (Nat.le_of_lt hnm), Arg.get_val]

/-- 3 + 5 modulo 7 on one digit. -/
theorem modAddSubExact_three :
    ModAddSubExact blank (.val (oneDigit 1 5)) (.val (oneDigit 1 7)) (oneDigit 1 3) := by
  have h5 : (oneDigit 1 5).WF := oneDigit_wf (by decide) (by decide) (by decide)
  have h7 : (oneDigit 1 7).WF := oneDigit_wf (by decide) (by decide) (by decide)
  have h3 : (oneDigit 1 3).WF := oneDigit_wf (by decide) (by decide) (by decide)
  apply (modAddSubExact_iff blank (argWF_val h5) h7 h3 (by decide) (by decide) (by decide)).mpr
  decide

/-- `B - 2` plus itself modulo `B - 1` is `B - 3`; on one digit the carry is lost and `B - 4` is
left. -/
theorem not_forall_modAddSubExact :
    ¬ ∀ (J : Junk) (n : Arg Bn) (m b : Bn), n.WF → m.WF → b.WF → b.value < m.value →
      (n.get b).value < m.value → m.digits ≤ b.count → ModAddSubExact J n (.val m) b := by
  intro h
  have hb : (oneDigit 1 (BitVec.ofNat 64 (2 ^ 64 - 2))).WF :=
    oneDigit_wf (by decide) (by decide) (by decide)
  have hm : (oneDigit 1 (BitVec.ofNat 64 (2 ^ 64 - 1))).WF :=
    oneDigit_wf (by decide) (by decide) (by decide)
  have hexact := h blank (.val (oneDigit 1 (BitVec.ofNat 64 (2 ^ 64 - 2))))
    (oneDigit 1 (BitVec.ofNat 64 (2 ^ 64 - 1))) (oneDigit 1 (BitVec.ofNat 64 (2 ^ 64 - 2)))
    (argWF_val hb) hm hb (by decide) (by decide) (by decide)
  have hwrong := hexact.add _ rfl
  revert hwrong
  decide +kernel

end BigNum.Bn
