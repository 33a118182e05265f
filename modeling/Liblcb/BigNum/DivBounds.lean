import Liblcb.BigNum.Products

/-!
# `bn_div` stays inside its arrays

`bn_div` and what it calls once more, with every digit access compared to the `count` of the array
it goes to; an access beyond it ends the run with `undef`.  On normalised numbers the runs are those
of `bn_div`, so no access is ever outside.
-/

namespace BigNum.Bn

open Limbs StateErr

/-! ## Accesses -/

/-- `num[i]`, where the array has `count` digits. -/
def digitAt (count : Nat) (num : List Digit) (i : Nat) : Except Err Digit :=
  if i < count then .ok (num.getD i 0) else (.error .undef : Except Err _)

/-- `&num[j]` with `len` digits. -/
def window (count : Nat) (num : List Digit) (j len : Nat) : Except Err (List Digit) :=
  if j + len ≤ count then .ok ((num.drop j).take len) else (.error .undef : Except Err _)

/-- A callee that gets `&num[j]` with `stop - j` digits and walks through the first `len` of them. -/
def updateWindow (count : Nat) (f : List Digit → List Digit) (num : List Digit)
    (j stop len : Nat) : Except Err (List Digit) :=
  if j + len ≤ stop ∧ stop ≤ count then .ok (onSlice f num j stop)
  else (.error .undef : Except Err _)

/-- `bn->num[bn->digits - 1]`. -/
def topDigit (b : Bn) : Except Err Digit :=
  if b.digits = 0 then .error .undef else digitAt b.count b.num.toList (b.digits - 1)

/-- Writes `l` to `bn->num`. -/
def store (b : Bn) (l : List Digit) : Except Err Bn :=
  if l.length ≤ b.count then .ok (b.write l) else (.error .undef : Except Err _)

/-- A statement that only looks at `*bn`. -/
def look {α : Type} (f : Bn → Except Err α) : BnM Bn α := fun b =>
  match f b with
  | .ok a => .ok a b
  | .error e => .error e b

/-- A statement that changes `*bn`. -/
def change (f : Bn → Except Err Bn) : BnM Bn Unit := fun b =>
  match f b with
  | .ok b' => .ok () b'
  | .error e => .error e b

/-! ## What `bn_div` calls -/

def bnInitDigitsChecked (b : Bn) (digitOff : Nat) : Except Err Bn :=
  if digitOff ≤ b.digits then .ok b
  else b.store (b.num.toList.take b.digits ++
    List.replicate (min digitOff b.count - b.digits) 0)

/-- `bn->digits = bn_digits_calc_digits(bn->num, count)`. -/
def recountChecked (b : Bn) (count : Nat) : Except Err Bn := do
  let num ← window b.count b.num.toList 0 count
  .ok { b with digits := bnDigitsCalcDigits num }

def bnUpdateDigitsChecked (b : Bn) (digits : Nat) : Except Err Bn :=
  if b.count ≤ digits then b.recountChecked b.count
  else if digits < b.digits then b.recountChecked b.digits
  else if b.digits < digits then do
    let top ← digitAt b.count b.num.toList (digits - 1)
    if top ≠ 0 then .ok { b with digits := digits } else b.recountChecked digits
  else b.recountChecked digits

def bnAssignChecked (src : Arg Bn) : BnM Bn Unit := fun b =>
  match src with
  | .self => .ok () b
  | .val src =>
    if b.count < src.digits then .error .eoverflow b
    else
      (do
        let num ← look fun _ => window src.count src.num.toList 0 src.digits
        change fun b => b.store num
        modify fun (b : Bn) => { b with digits := src.digits }) b

def bnAssignInitChecked (src : Arg Bn) : BnM Bn Unit := fun b =>
  match src with
  | .self => .ok () b
  | .val src =>
    (do
      modify fun (b : Bn) => { b with count := src.count, digits := src.digits }
      let num ← look fun _ => window src.count src.num.toList 0 src.digits
      change fun b => b.store num) b

def bnAssignDigitChecked (digit : Digit) : BnM Bn Unit := fun b =>
  if b.count = 0 then .error .eoverflow b
  else
    match digitAt b.count b.num.toList 0 with
    | .ok _ => .ok () { b.setDig 0 digit with digits := 1 }
    | .error e => .error e b

def bnLShiftChecked (bits : Nat) : BnM Bn Unit := fun b =>
  if b.digits = 0 then .ok () b
  else
    let digits := min b.count (b.digits + 1 + bits / 64)
    (do
      change fun b => b.bnInitDigitsChecked digits
      let num ← look fun b => window b.count b.num.toList 0 digits
      let l ← look fun _ => bnDigitsLShift num bits
      change fun b => b.store l
      change fun b => b.bnUpdateDigitsChecked digits) b

def bnRShiftChecked (bits : Nat) : BnM Bn Unit := fun b =>
  if b.digits = 0 then .ok () b
  else
    (do
      let num ← look fun b => window b.count b.num.toList 0 b.digits
      let l ← look fun _ => bnDigitsRShift num bits
      change fun b => b.store l
      change fun b => b.bnUpdateDigitsChecked b.digits) b

def bnCmpChecked (a b : Bn) : Except Err Ordering :=
  if a.digits ≠ b.digits then .ok (compare a.digits b.digits)
  else do
    let x ← window a.count a.num.toList 0 a.digits
    let y ← window b.count b.num.toList 0 a.digits
    .ok (bnDigitsCmp x y)

/-! ## `bn_div` -/

/-- The loop condition of the correction: the comparison is made only when the digit above the
window does not decide. -/
def correctMore (nnCount : Nat) (dd : List Digit) (j : Nat) (num : List Digit) :
    Except Err Bool := do
  let high ← if j + dd.length < nnCount then digitAt nnCount num (j + dd.length) else .ok 0
  if high ≠ 0 then .ok true
  else do
    let a ← window nnCount num j dd.length
    .ok (decide (bnDigitsCmp a dd ≠ .lt))

def divCorrectChecked (nnCount nnDigits : Nat) (dd : List Digit) (j : Nat) :
    Nat → Digit → List Digit → Except Err (Digit × List Digit)
  | 0, _, _ => .error .noReturn
  | fuel + 1, ai, num => do
    if ← correctMore nnCount dd j num then do
      let num ← updateWindow nnCount (fun a => (bnDigitsSubInt a dd).1) num j nnDigits dd.length
      divCorrectChecked nnCount nnDigits dd j fuel (ai + 1) num
    else .ok (ai, num)

def divEstimateChecked (nnCount ddDigits : Nat) (t : Digit) (j : Nat) (num : List Digit) :
    Except Err Digit :=
  if nnCount = j + ddDigits then
    if t = maxDigit then .ok 0
    else do
      let lo ← digitAt nnCount num (j + ddDigits - 1)
      .ok (lo / (t + 1))
  else if t = maxDigit then digitAt nnCount num (j + ddDigits)
  else do
    let lo ← digitAt nnCount num (j + ddDigits - 1)
    let hi ← digitAt nnCount num (j + ddDigits)
    bnDigitDivShort lo hi (t + 1)

def divStepChecked (nnCount nnDigits : Nat) (dd : List Digit) (t : Digit) (j : Nat)
    (num : List Digit) : Except Err (Digit × List Digit) := do
  let ai ← divEstimateChecked nnCount dd.length t j num
  let num ←
    if ai ≠ 0 then
      updateWindow nnCount (fun a => (bnDigitsSubDigitMult a dd ai).1) num j nnDigits dd.length
    else .ok num
  divCorrectChecked nnCount nnDigits dd j (2 ^ 64) ai num

/-- `bnCount` digits are there for the quotient. -/
def divLoopChecked (bnCount nnCount nnDigits : Nat) (dd : List Digit) (t : Digit) :
    Nat → List Digit → List Digit → Except Err (List Digit × List Digit)
  | 0, q, num => .ok (q, num)
  | j + 1, q, num => do
    let r ← divStepChecked nnCount nnDigits dd t j num
    -- bn->num[j] = ai
    if j < bnCount then divLoopChecked bnCount nnCount nnDigits dd t j (r.1 :: q) r.2
    else .error .undef

def divMainChecked (J : Junk) (d : Bn) (remainder : Rem Bn) : BnM Bn (Option Bn) := fun b =>
  (do
    let dTop ← look fun _ => d.topDigit
    let shift := bnDigitClz dTop
    let lost ← look fun b =>
      if b.count = b.digits then do
        let bTop ← b.topDigit
        .ok (decide (bnDigitClz bTop < shift))
      else .ok false
    if lost then throw Err.eoverflow
    else do
      let dd ← exec (uninit (J 0)) (bnAssignInitChecked d)
      let dd ← look fun _ => dd.bnInitDigitsChecked dd.count
      let dd ← exec dd (bnLShiftChecked shift)
      let t ← look fun _ => dd.topDigit
      let nn ← exec (uninit (J 1)) (bnAssignInitChecked b)
      let nn ← look fun _ => nn.bnInitDigitsChecked nn.count
      let nn ← exec nn (bnLShiftChecked shift)
      bnAssignZero
      let ddNum ← look fun _ => window dd.count dd.num.toList 0 dd.digits
      let r ← look fun b => divLoopChecked b.count nn.count nn.digits ddNum t
        (1 + nn.digits - dd.digits) [] nn.num.toList
      change fun b => (b.write r.1).bnUpdateDigitsChecked (1 + nn.digits - dd.digits)
      match remainder with
      | .null => pure none
      | .self => do
        let nn ← look fun _ => (nn.write r.2).bnUpdateDigitsChecked nn.digits
        let nn ← exec nn (bnRShiftChecked shift)
        bnAssignChecked nn
        pure none
      | .other rm => do
        let nn ← look fun _ => (nn.write r.2).bnUpdateDigitsChecked nn.digits
        let nn ← exec nn (bnRShiftChecked shift)
        let rm ← exec rm (bnAssignChecked nn)
        pure (some rm)) b

/-- The error code of `bn_assign_digit` is not looked at. -/
def divEqChecked (remainder : Rem Bn) : BnM Bn (Option Bn) := fun b =>
  let setOne (out : Option Bn) : EStateM.Result Err Bn (Option Bn) :=
    match bnAssignDigitChecked 1 b with
    | .error .undef b => .error .undef b
    | r => .ok out (stateOf r)
  match remainder with
  | .null => setOne none
  | .self => .ok none { b with digits := 0 }
  | .other r => setOne (some { r with digits := 0 })

def divSmallChecked (remainder : Rem Bn) : BnM Bn (Option Bn) := fun b =>
  match remainder with
  | .null => .ok none { b with digits := 0 }
  | .self => .ok none b
  | .other r =>
    match bnAssignChecked b r with
    | .ok _ r => .ok (some r) { b with digits := 0 }
    | .error e _ => .error e { b with digits := 0 }

/-- `bn_div` with every digit access checked. -/
def bnDivChecked (J : Junk) (d : Arg Bn) (remainder : Rem Bn) : BnM Bn (Option Bn) := fun b =>
  if (d.get b).digits = 0 then .error .einval b
  else
    match d with
    | .self => divEqChecked remainder b
    | .val d =>
      match bnCmpChecked b d with
      | .ok .eq => divEqChecked remainder b
      | .ok .lt => divSmallChecked remainder b
      | .ok .gt => divMainChecked J d remainder b
      | .error e => .error e b

/-! ## The checked runs are the runs -/

theorem look_apply {α : Type} (f : Bn → Except Err α) (b : Bn) :
    look f b = match f b with
      | .ok a => .ok a b
      | .error e => .error e b := rfl

theorem change_apply (f : Bn → Except Err Bn) (b : Bn) :
    change f b = match f b with
      | .ok b' => .ok () b'
      | .error e => .error e b := rfl

theorem look_ok {α : Type} {f : Bn → Except Err α} {b : Bn} {a : α} (h : f b = .ok a) :
    look f b = .ok a b := by
  rw [look, h]

theorem change_ok {f : Bn → Except Err Bn} {b b' : Bn} (h : f b = .ok b') :
    change f b = .ok () b' := by
  rw [change, h]

theorem window_zero {count k : Nat} (num : List Digit) (h : k ≤ count) :
    window count num 0 k = .ok (num.take k) := by
  rw [window, if_pos (by omega), List.drop_zero]

theorem bnInitDigitsChecked_eq {b : Bn} (hd : b.digits ≤ b.count) (off : Nat) :
    b.bnInitDigitsChecked off = .ok (b.bnInitDigits off) := by
  rw [bnInitDigitsChecked, bnInitDigits]
  split
  · rfl
  · rw [store, if_pos]
    rw [List.length_append, List.length_take, List.length_replicate]
    omega

theorem recountChecked_eq {b : Bn} {k : Nat} (hk : k ≤ b.count) :
    b.recountChecked k =
      .ok { b with digits := bnDigitsCalcDigits (b.num.toList.take k) } := by
  rw [recountChecked, window_zero _ hk]
  rfl

theorem bnUpdateDigitsChecked_eq {b : Bn} (hd : b.digits ≤ b.count) (digits : Nat) :
    b.bnUpdateDigitsChecked digits = .ok (b.bnUpdateDigits digits) := by
  rw [bnUpdateDigitsChecked, bnUpdateDigits]
  by_cases h1 : b.count ≤ digits
  · rw [if_pos h1, if_pos h1, recountChecked_eq le_rfl]
  · rw [if_neg h1, if_neg h1]
    by_cases h2 : digits < b.digits
    · rw [if_pos h2, if_pos h2, recountChecked_eq hd]
    · have hcalc := recountChecked_eq (b := b) (k := digits) (by omega)
      rw [if_neg h2, if_neg h2, hcalc]
      by_cases h3 : b.digits < digits
      · rw [if_pos h3, digitAt, if_pos (by omega)]
        by_cases h4 : b.dig (digits - 1) ≠ 0
        · rw [if_pos ⟨h3, h4⟩]
          exact if_pos h4
        · rw [if_neg (fun h => h4 h.2)]
          exact if_neg h4
      · rw [if_neg h3, if_neg (fun h => h3 h.1)]

theorem topDigit_eq {b : Bn} (h0 : 0 < b.digits) (hd : b.digits ≤ b.count) :
    b.topDigit = .ok (b.dig (b.digits - 1)) := by
  rw [topDigit, if_neg (by omega), digitAt, if_pos (by omega)]
  rfl

theorem bnAssignChecked_eq {src : Bn} (hsrc : src.digits ≤ src.count) (b : Bn) :
    bnAssignChecked src b = bnAssign src b := by
  simp only [bnAssignChecked, bnAssign]
  split
  · rfl
  next hfit =>
    have hlen : (src.num.toList.take src.digits).length ≤ b.count :=
      (List.length_take_le _ _).trans (Nat.not_lt.mp hfit)
    rw [bind_of_ok (look_ok (window_zero _ hsrc)), bind_of_ok (change_ok (if_pos hlen))]
    rfl

theorem bnAssignInitChecked_eq {src : Bn} (hsrc : src.digits ≤ src.count) (b : Bn) :
    bnAssignInitChecked src b = bnAssignInit src b := by
  have hlen : (src.num.toList.take src.digits).length ≤ src.count :=
    (List.length_take_le _ _).trans hsrc
  simp only [bnAssignInitChecked, bnAssignInit]
  rw [bind_of_ok (modify_apply _ _), bind_of_ok (look_ok (window_zero _ hsrc)),
    change_ok (if_pos hlen)]
  rfl

theorem bnAssignInit_wf {src b t : Bn} (hb : b.WF) (hsrc : src.WF)
    (h : bnAssignInit src b = .ok () t) : t.WF := by
  have hwf := (bnAssignInit_refines (argWF_val hsrc) b hb).2
  rwa [h, stateOf_ok] at hwf

theorem length_bnDigitsLShift {a l : List Digit} {bits : Nat} (h : bnDigitsLShift a bits = .ok l) :
    l.length = a.length := by
  by_cases hbits : bits < 64 * a.length + 8
  · rcases bnDigitsLShift_ok bits hbits with ⟨l', hl', hlen, -⟩
    rw [h] at hl'
    injection hl' with hl'
    rw [hl', hlen]
  · by_cases h0 : a.length = 0
    · rw [bnDigitsLShift, if_pos (.inl h0)] at h
      injection h with h
      rw [h]
    · rw [bnDigitsLShift_undef h0 (by omega)] at h
      cases h

theorem length_bnDigitsRShift {a l : List Digit} {bits : Nat} (h : bnDigitsRShift a bits = .ok l) :
    l.length = a.length := by
  by_cases hbits : bits ≤ 64 * a.length
  · rcases bnDigitsRShift_ok bits hbits with ⟨l', hl', hlen, -⟩
    rw [h] at hl'
    injection hl' with hl'
    rw [hl', hlen]
  · by_cases h0 : a.length = 0
    · rw [bnDigitsRShift, if_pos (.inl h0)] at h
      injection h with h
      rw [h]
    · rw [bnDigitsRShift_undef h0 (by omega)] at h
      cases h

theorem bnLShiftChecked_eq {b : Bn} (hd : b.digits ≤ b.count) (bits : Nat) :
    bnLShiftChecked bits b = bnLShift bits b := by
  simp only [bnLShiftChecked, bnLShift]
  split
  · rfl
  · generalize hk : min b.count (b.digits + 1 + bits / 64) = k
    have hkc : k ≤ (b.bnInitDigits k).count := by rw [bnInitDigits_count]; omega
    rw [bind_of_ok (change_ok (bnInitDigitsChecked_eq hd k)),
      bind_of_ok (look_ok (window_zero _ hkc))]
    cases hl : bnDigitsLShift ((b.bnInitDigits k).num.toList.take k) bits with
    | error e =>
      apply bind_of_error
      rw [look]
    | ok l =>
      have hlen : l.length ≤ (b.bnInitDigits k).count := by
        rw [length_bnDigitsLShift hl]
        exact (List.length_take_le _ _).trans hkc
      have hd' : ((b.bnInitDigits k).write l).digits ≤ ((b.bnInitDigits k).write l).count := by
        simpa using hd
      rw [bind_of_ok (look_ok (f := fun _ => .ok l) rfl), bind_of_ok (change_ok (if_pos hlen)),
        change_ok (bnUpdateDigitsChecked_eq hd' k)]

theorem bnRShiftChecked_eq {b : Bn} (hd : b.digits ≤ b.count) (bits : Nat) :
    bnRShiftChecked bits b = bnRShift bits b := by
  simp only [bnRShiftChecked, bnRShift]
  split
  · rfl
  · rw [bind_of_ok (look_ok (window_zero _ hd))]
    cases hl : bnDigitsRShift (b.num.toList.take b.digits) bits with
    | error e =>
      rw [sig, hl]
      apply bind_of_error
      rw [look]
    | ok l =>
      have hlen : l.length ≤ b.count := by
        rw [length_bnDigitsRShift hl]
        exact (List.length_take_le _ _).trans hd
      rw [sig, hl, bind_of_ok (look_ok (f := fun _ => .ok l) rfl), bind_of_ok (change_ok (if_pos hlen)),
        change_ok (bnUpdateDigitsChecked_eq (b := b.write l) hd b.digits)]

theorem bnCmpChecked_eq {a b : Bn} (ha : a.digits ≤ a.count) (hb : b.digits ≤ b.count) :
    bnCmpChecked a b = .ok (bnCmp a b) := by
  rw [bnCmpChecked, bnCmp]
  split
  · rfl
  next heq =>
    have heq : a.digits = b.digits := not_not.mp heq
    rw [window_zero _ ha, window_zero _ (heq ▸ hb)]
    simp only [sig, heq]
    rfl

section Round

variable {nnCount nnDigits : Nat} {dd : List Digit} {j : Nat}

theorem updateWindow_eq {len : Nat} (hj : j + len ≤ nnDigits) (hn : nnDigits ≤ nnCount)
    (f : List Digit → List Digit) (num : List Digit) :
    updateWindow nnCount f num j nnDigits len = .ok (onSlice f num j nnDigits) :=
  if_pos ⟨hj, hn⟩

theorem correctMore_eq (hj : j + dd.length ≤ nnCount) (num : List Digit) :
    correctMore nnCount dd j num =
      .ok (decide ((j + dd.length < nnCount ∧ num.getD (j + dd.length) 0 ≠ 0) ∨
        bnDigitsCmp ((num.drop j).take dd.length) dd ≠ .lt)) := by
  have hw : window nnCount num j dd.length = .ok ((num.drop j).take dd.length) := if_pos hj
  by_cases h : j + dd.length < nnCount
  · have hhigh : digitAt nnCount num (j + dd.length) = .ok (num.getD (j + dd.length) 0) :=
      if_pos h
    generalize num.getD (j + dd.length) 0 = high at hhigh
    simp only [correctMore, if_pos h, hhigh, hw, bind, Except.bind]
    by_cases h0 : high = 0
    · rw [if_neg (not_not.mpr h0)]
      simp only [h, h0, ne_eq, not_true_eq_false, and_false, false_or]
    · rw [if_pos h0]
      simp only [h, h0, ne_eq, not_false_eq_true, and_self, true_or, decide_true]
  · simp [correctMore, h, hw, bind, Except.bind]

theorem divCorrectChecked_eq (hj : j + dd.length ≤ nnDigits) (hn : nnDigits ≤ nnCount)
    (fuel : Nat) (ai : Digit) (num : List Digit) :
    divCorrectChecked nnCount nnDigits dd j fuel ai num =
      divCorrect nnCount nnDigits dd j fuel ai num := by
  induction fuel generalizing ai num with
  | zero => rfl
  | succ fuel ih =>
    rw [divCorrectChecked, divCorrect, correctMore_eq (hj.trans hn)]
    simp only [bind, Except.bind, updateWindow_eq hj hn, ih, decide_eq_true_eq]

theorem divEstimateChecked_eq (hm : 0 < dd.length) (hj : j + dd.length ≤ nnCount) (t : Digit)
    (num : List Digit) :
    divEstimateChecked nnCount dd.length t j num = divEstimate nnCount dd.length t j num := by
  have hlo : digitAt nnCount num (j + dd.length - 1) = .ok (num.getD (j + dd.length - 1) 0) :=
    if_pos (by omega)
  rw [divEstimateChecked, divEstimate, hlo]
  split
  · split <;> rfl
  next hne =>
    have hhi : digitAt nnCount num (j + dd.length) = .ok (num.getD (j + dd.length) 0) :=
      if_pos (by omega)
    rw [hhi]
    rfl

theorem divStepChecked_eq (hm : 0 < dd.length) (hj : j + dd.length ≤ nnDigits)
    (hn : nnDigits ≤ nnCount) (t : Digit) (num : List Digit) :
    divStepChecked nnCount nnDigits dd t j num = divStep nnCount nnDigits dd t j num := by
  rw [divStepChecked, divStep, divEstimateChecked_eq hm (hj.trans hn)]
  cases divEstimate nnCount dd.length t j num with
  | error e => rfl
  | ok ai =>
    simp only [bind, Except.bind, updateWindow_eq hj hn, divCorrectChecked_eq hj hn]
    split <;> rfl

theorem divLoopChecked_eq {bnCount k : Nat} (hm : 0 < dd.length)
    (hk : k + dd.length ≤ nnDigits + 1) (hn : nnDigits ≤ nnCount) (hb : k ≤ bnCount) (t : Digit)
    (q num : List Digit) :
    divLoopChecked bnCount nnCount nnDigits dd t k q num =
      divLoop nnCount nnDigits dd t k q num := by
  induction k generalizing q num with
  | zero => rfl
  | succ k ih =>
    rw [divLoopChecked, divLoop, divStepChecked_eq hm (by omega) hn]
    cases divStep nnCount nnDigits dd t k num with
    | error e => rfl
    | ok r =>
      simp only [bind, Except.bind]
      rw [if_pos (by omega), ih (by omega) (by omega)]

end Round

theorem divMainChecked_eq (J : Junk) {b d : Bn} (hb : b.WF) (hd : d.WF) (hd0 : d.value ≠ 0)
    (hlt : d.value < b.value) (remainder : Rem Bn) :
    divMainChecked J d remainder b = divMain J d remainder b := by
  have hdpos : 0 < d.digits := Nat.pos_of_ne_zero (fun h => hd0 (hd.digits_eq_zero.mp h))
  have hbpos : 0 < b.digits := Nat.pos_of_ne_zero (fun h => by
    have := hb.digits_eq_zero.mp h
    omega)
  have hclz := bnDigitClz_top hd hdpos.ne'
  have hclzb := bnDigitClz_top hb hbpos.ne'
  have hlost : (if b.count = b.digits then do
        let bTop ← b.topDigit
        .ok (decide (bnDigitClz bTop < topClz d.value))
      else .ok false : Except Err Bool) =
      .ok (decide (b.count = b.digits ∧ topClz b.value < topClz d.value)) := by
    by_cases hfull : b.count = b.digits
    · rw [if_pos hfull, topDigit_eq hbpos hb.digits_le]
      simp [bind, Except.bind, hfull, hclzb]
    · simp [hfull]
  simp only [divMainChecked, divMain, bind_apply, look_apply, topDigit_eq hdpos hd.digits_le,
    hclz, hlost, fold_ok, decide_eq_true_eq, StateErr.ite_apply, hclzb]
  by_cases hfit : b.count = b.digits ∧ topClz b.value < topClz d.value
  · rw [if_pos hfit, if_pos hfit]
    rfl
  rw [if_neg hfit, if_neg hfit]
  rw [hb.digits_eq] at hfit
  rcases divCore_spec J hb hd hd0 hlt hfit with ⟨cd, dd, cn, nn, q, num, hcd, hdd, hcn, hnn, hrun,
    hddwf, hmpos, hle, hnnwf, hnncount, hnum, hql, hqc, -, -⟩
  have hcdwf := bnAssignInit_wf (uninit_wf _) hd hcd
  have hcnwf := bnAssignInit_wf (uninit_wf _) hb hcn
  have hcdi := (bnInitDigits_wf hcdwf cd.count).1
  have hcni := (bnInitDigits_wf hcnwf cn.count).1
  have hloop : divLoopChecked b.count nn.count nn.digits (dd.num.toList.take dd.digits)
      (dd.dig (dd.digits - 1)) (1 + nn.digits - dd.digits) [] nn.num.toList = .ok (q, num) := by
    have hlen : (dd.num.toList.take dd.digits).length = dd.digits := hddwf.length_sig
    rw [divLoopChecked_eq (by omega) (by omega) hnnwf.digits_le (by omega)]
    exact hrun
  simp only [exec_apply, bnAssignInitChecked_eq hd.digits_le, hcd, fold_ok,
    bnInitDigitsChecked_eq hcdwf.digits_le, bnLShiftChecked_eq hcdi.digits_le, hdd,
    topDigit_eq hmpos hddwf.digits_le, bnAssignInitChecked_eq hb.digits_le, hcn,
    bnInitDigitsChecked_eq hcnwf.digits_le, bnLShiftChecked_eq hcni.digits_le, hnn, bnAssignZero,
    window_zero _ hddwf.digits_le, hloop, hrun, change_apply]
  have hquot := bnUpdateDigitsChecked_eq (b := ({ b with digits := 0 } : Bn).write q)
    (Nat.zero_le _) (1 + nn.digits - dd.digits)
  have hnnupd := bnUpdateDigitsChecked_eq (b := nn.write num) hnnwf.digits_le nn.digits
  have hrwf := (bnUpdateDigits_spec (b := nn.write num) hnnwf.digits_le hnnwf.count_le
    nn.digits).1
  generalize (nn.write num).bnUpdateDigits nn.digits = rest at hnnupd hrwf
  rw [hquot]
  simp only [fold_ok, bind_apply, modify_apply]
  -- the remainder is shifted back and assigned
  have hshift := bnRShiftChecked_eq hrwf.digits_le (topClz d.value)
  have hswf := (bnRShift_refines (topClz d.value) rest hrwf).2
  cases remainder with
  | null => rfl
  | self =>
    simp only [bind_apply, look_apply, hnnupd, fold_ok, exec_apply, hshift]
    cases hres : bnRShift (topClz d.value) rest with
    | error e t => rfl
    | ok a t =>
      rw [hres, stateOf_ok] at hswf
      simp only [fold_ok, bnAssignChecked_eq hswf.digits_le]
  | other r =>
    simp only [bind_apply, look_apply, hnnupd, fold_ok, exec_apply, hshift]
    cases hres : bnRShift (topClz d.value) rest with
    | error e t => rfl
    | ok a t =>
      rw [hres, stateOf_ok] at hswf
      simp only [fold_ok, bnAssignChecked_eq hswf.digits_le]

theorem divEqChecked_eq (remainder : Rem Bn) (b : Bn) :
    divEqChecked remainder b = divEq remainder b := by
  have hone : bnAssignDigitChecked 1 b = bnAssignDigit 1 b := by
    simp only [bnAssignDigitChecked, bnAssignDigit]
    split
    · rfl
    next h => rw [digitAt, if_pos (Nat.pos_of_ne_zero h)]
  simp only [divEqChecked, divEq, hone]
  -- the error code for an empty array is ignored, a bad access would not be
  have hcode : ∀ t, bnAssignDigit 1 b ≠ .error .undef t := by
    intro t ht
    simp only [bnAssignDigit] at ht
    split at ht <;> cases ht
  cases hres : bnAssignDigit 1 b with
  | ok a t => rfl
  | error e t =>
    cases e with
    | undef => exact absurd hres (hcode t)
    | _ => rfl

theorem divSmallChecked_eq {b : Bn} (hb : b.digits ≤ b.count) (remainder : Rem Bn) :
    divSmallChecked remainder b = divSmall remainder b := by
  cases remainder with
  | null => rfl
  | self => rfl
  | other r =>
    unfold divSmallChecked divSmall
    cases hres : bnAssign b r with
    | ok _ => simp [bnAssignChecked_eq hb, hres]
    | error _ => simp [bnAssignChecked_eq hb, hres]

theorem bnDivChecked_eq (J : Junk) {d : Arg Bn} (hd : d.WF) {b : Bn} (hb : b.WF)
    (remainder : Rem Bn) : bnDivChecked J d remainder b = bnDiv J d remainder b := by
  simp only [bnDivChecked, bnDiv]
  by_cases h0 : (d.get b).digits = 0
  · rw [if_pos h0, if_pos h0]
  rw [if_neg h0, if_neg h0]
  cases d with
  | self => exact divEqChecked_eq remainder b
  | val d =>
    have hdwf := hd d rfl
    have hd0 : d.value ≠ 0 := fun h => h0 (hdwf.digits_eq_zero.mpr h)
    simp only [bnCmpChecked_eq hb.digits_le hdwf.digits_le]
    rw [bnCmp_eq hb hdwf]
    cases hcmp : compare b.value d.value with
    | lt => exact divSmallChecked_eq hb.digits_le remainder
    | eq => exact divEqChecked_eq remainder b
    | gt => exact divMainChecked_eq J hb hdwf hd0 (Nat.compare_eq_gt.mp hcmp) remainder

/-! ## Quotient and remainder -/

/-- What `bn_div` leaves in `*bn` and in a remainder of its own for `N / D`. -/
def DivResult (N D : Nat) (remainder : Rem Bn) (out : Option Bn) (b : Bn) : Prop :=
  match remainder with
  | .null => b.value = N / D
  | .self => b.value = N % D
  | .other _ => b.value = N / D ∧ ∃ r, out = some r ∧ r.value = N % D

/-- `DivResult` for numbers by value. -/
def NumDivResult (N D : Nat) (remainder : Rem Num) (out : Option Num) (x : Num) : Prop :=
  match remainder with
  | .null => x.val = N / D
  | .self => x.val = N % D
  | .other _ => x.val = N / D ∧ ∃ r, out = some r ∧ r.val = N % D

theorem numDivEq_result {remainder : Rem Num} {x t : Num} {out : Option Num} {D : Nat}
    (hD : D ≠ 0) (heq : x.val = D) (h : Num.divEq remainder x = .ok out t) :
    NumDivResult x.val D remainder out t := by
  have hquot : x.val / D = 1 := by rw [heq]; exact Nat.div_self (Nat.pos_of_ne_zero hD)
  have hmod : x.val % D = 0 := by rw [heq]; exact Nat.mod_self D
  cases remainder <;> cases h <;> simp [NumDivResult, hquot, hmod]

theorem numDiv_result {J : Junk} {d : Arg Num} {remainder : Rem Num} {x t : Num}
    {out : Option Num} (hD : (d.get x).val ≠ 0) (h : Num.bnDiv J d remainder x = .ok out t) :
    NumDivResult x.val (d.get x).val remainder out t := by
  unfold Num.bnDiv at h
  rw [if_neg hD] at h
  by_cases heq : x.val = (d.get x).val
  · rw [if_pos heq] at h
    exact numDivEq_result hD heq h
  rw [if_neg heq] at h
  by_cases hlt : x.val < (d.get x).val
  · have hquot : x.val / (d.get x).val = 0 := Nat.div_eq_of_lt hlt
    have hmod : x.val % (d.get x).val = x.val := Nat.mod_eq_of_lt hlt
    rw [if_pos hlt] at h
    cases remainder with
    | null => cases h; simp [NumDivResult, hquot]
    | self => cases h; simp [NumDivResult, hmod]
    | other r =>
      simp only at h
      split at h
      · cases h
      · cases h
        simp [NumDivResult, hquot, hmod]
  · rw [if_neg hlt] at h
    split at h
    · cases h
    cases remainder with
    | null => cases h; rfl
    | self => cases h; rfl
    | other r =>
      simp only at h
      split at h
      · cases h
      · cases h
        simp [NumDivResult]

theorem numDiv_error {J : Junk} {d : Arg Num} {remainder : Rem Num} {x t : Num} {e : Err}
    (h : Num.bnDiv J d remainder x = .error e t) : e = .einval ∨ e = .eoverflow := by
  unfold Num.bnDiv at h
  simp only at h
  split at h
  · cases h
    exact .inl rfl
  split at h
  · cases remainder <;> cases h
  split at h
  · cases remainder with
    | null => cases h
    | self => cases h
    | other r =>
      simp only at h
      split at h <;> cases h
      exact .inr rfl
  split at h
  · cases h
    exact .inr rfl
  cases remainder with
  | null => cases h
  | self => cases h
  | other r =>
    simp only at h
    split at h <;> cases h
    exact .inr rfl

/-- `bn_div` divides, refuses a zero divisor without a change, and reads and writes digits below
the `count` of their arrays only. -/
theorem bnDiv_divides (J : Junk) {d : Arg Bn} (hd : d.WF) {remainder : Rem Bn}
    (hrem : RemWF remainder) {b : Bn} (hb : b.WF) :
    ((d.get b).value ≠ 0 → ∀ out t, bnDiv J d remainder b = .ok out t →
      DivResult b.value (d.get b).value remainder out t) ∧
    ((d.get b).value = 0 → bnDiv J d remainder b = .error .einval b) ∧
    bnDivChecked J d remainder b = bnDiv J d remainder b ∧
    ∀ e t, bnDivChecked J d remainder b = .error e t → e = .einval ∨ e = .eoverflow := by
  have hdiv := bnDiv_refines J hd hrem b hb
  rcases hdiv with ⟨hrun, -, -⟩
  refine ⟨?_, ?_, bnDivChecked_eq J hd hb remainder, ?_⟩
  · intro hD out t ht
    rw [ht, mapRes_ok] at hrun
    have hD' : (Arg.get (d.map abs) b.abs).val ≠ 0 := by rwa [Arg.get_map]
    have hres := numDiv_result hD' hrun.symm
    rw [Arg.get_map, abs_val, abs_val] at hres
    cases remainder with
    | null => exact hres
    | self => exact hres
    | other r =>
      obtain ⟨hquot, r', hout, hmod⟩ := hres
      cases out with
      | none => cases hout
      | some r'' =>
        cases hout
        exact ⟨hquot, r'', rfl, hmod⟩
  · intro hzero
    exact if_pos ((hd.get hb).digits_eq_zero.mpr hzero)
  · intro e t ht
    rw [bnDivChecked_eq J hd hb remainder] at ht
    rw [ht, mapRes_error] at hrun
    exact numDiv_error hrun.symm

def isOk {ε σ α : Type} : EStateM.Result ε σ α → Bool
  | .ok _ _ => true
  | .error _ _ => false

/-- 7 / 2 with the remainder in a record of its own. -/
theorem bnDiv_divides_seven :
    ∃ r t, bnDiv blank (oneDigit 2 2) (.other (oneDigit 2 9)) (oneDigit 2 7) = .ok (some r) t ∧
      t.value = 3 ∧ r.value = 1 := by
  have h2 : (oneDigit 2 2).WF := oneDigit_wf (by decide) (by decide) (by decide)
  have h7 : (oneDigit 2 7).WF := oneDigit_wf (by decide) (by decide) (by decide)
  have hrem : RemWF (.other (oneDigit 2 9)) := by
    rintro x ⟨⟩
    exact oneDigit_wf (by decide) (by decide) (by decide)
  have hran : isOk (bnDiv blank (oneDigit 2 2) (.other (oneDigit 2 9)) (oneDigit 2 7)) = true := by
    decide +kernel
  have hdivides := (bnDiv_divides blank (argWF_val h2) hrem h7).1 (by decide)
  cases hres : bnDiv blank (oneDigit 2 2) (.other (oneDigit 2 9)) (oneDigit 2 7) with
  | error e t =>
    rw [hres] at hran
    contradiction
  | ok out t =>
    obtain ⟨hquot, r, rfl, hmod⟩ := hdivides out t hres
    exact ⟨r, t, rfl, hquot, hmod⟩

end BigNum.Bn
