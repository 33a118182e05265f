import Liblcb.BigNum.DivBounds
import Liblcb.Lib.Buffer
import Liblcb.BigNum.NumRead
import Liblcb.BigNum.Products

/-!
# Shifts

`bn_digits_l_shift` and `bn_digits_r_shift` once more, with the block moves on the bytes of the
array and the loops by index: a block or a digit outside the array ends the run with `undef`, and
lengths and loop bounds are computed in `size_t`.  The length tests of the source are compiled out,
so a right shift by more bits than the digits in use hold leaves the array.
-/

namespace BigNum

open Limbs StateErr

/-! ## Blocks and loops -/

/-- `a - b` in `size_t`. -/
def sizeSub (a b : Nat) : Nat := (a + 2 ^ 64 - b) % 2 ^ 64

/-- `memmove(mem + dst, mem + src, len)`. -/
def memmove (mem : List (BitVec 8)) (dst src len : Nat) : Except Err (List (BitVec 8)) :=
  if dst + len ≤ mem.length ∧ src + len ≤ mem.length then
    .ok (Buffer.splice mem dst ((mem.drop src).take len))
  else (.error .undef : Except Err _)

/-- `memset(mem + dst, 0x00, len)`. -/
def memzero (mem : List (BitVec 8)) (dst len : Nat) : Except Err (List (BitVec 8)) :=
  if dst + len ≤ mem.length then .ok (Buffer.splice mem dst (List.replicate len 0))
  else (.error .undef : Except Err _)

/-- `a[i]`. -/
def readDigit (a : List Digit) (i : Nat) : Except Err Digit :=
  if i < a.length then .ok (a.getD i 0) else (.error .undef : Except Err _)

/-- `a[i] = d`. -/
def writeDigit (a : List Digit) (i : Nat) (d : Digit) : Except Err (List Digit) :=
  if i < a.length then .ok (a.set i d) else (.error .undef : Except Err _)

/-- The loop of `bn_digits_l_shift` from index `i` on. -/
def lShiftFrom (bits count : Nat) : Nat → Nat → Digit → List Digit → Except Err (List Digit)
  | 0, _, _, _ => .error .noReturn
  | fuel + 1, i, crr, a =>
    if i < count then do
      let tm ← readDigit a i
      let a ← writeDigit a i ((tm <<< bits) ||| crr)
      lShiftFrom bits count fuel (i + 1) (tm >>> (64 - bits)) a
    else .ok a

/-- The loop of `bn_digits_r_shift` up to `last`, and the digit after it. -/
def rShiftFrom (bits last : Nat) : Nat → Nat → List Digit → Except Err (List Digit)
  | 0, _, _ => .error .noReturn
  | fuel + 1, i, a =>
    if i < last then do
      let lo ← readDigit a i
      let hi ← readDigit a (i + 1)
      let a ← writeDigit a i ((lo >>> bits) ||| (hi <<< (64 - bits)))
      rShiftFrom bits last fuel (i + 1) a
    else do
      let lo ← readDigit a i
      writeDigit a i (lo >>> bits)

/-- `bn_digits_l_shift` -/
def bnDigitsLShiftIndexed (a : List Digit) (bits : Nat) : Except Err (List Digit) :=
  let count := a.length
  if count = 0 ∨ bits = 0 then .ok a
  else if bits % 8 = 0 ∨ 64 < bits then do
    let i := bits / 8
    let mem ← memmove (toBytes a) i 0 (sizeSub (count * 8) i)
    let mem ← memzero mem 0 i
    let a := ofBytes mem
    if bits % 8 = 0 then .ok a
    else lShiftFrom (bits - i * 8) count (count + 1) (i / 8) 0 a
  else lShiftFrom bits count (count + 1) 0 0 a

/-- `bn_digits_r_shift` -/
def bnDigitsRShiftIndexed (a : List Digit) (bits : Nat) : Except Err (List Digit) :=
  let count := a.length
  if count = 0 ∨ bits = 0 then .ok a
  else if bits % 8 = 0 ∨ 64 < bits then do
    let i := bits / 8
    let mem ← memmove (toBytes a) 0 i (sizeSub (count * 8) i)
    let mem ← memzero mem (sizeSub (count * 8) i) i
    let a := ofBytes mem
    if bits % 8 = 0 then .ok a
    else rShiftFrom (bits - i * 8) (sizeSub (sizeSub count (i / 8)) 1) (count + 1) 0 a
  else rShiftFrom bits (sizeSub count 1) (count + 1) 0 a

/-! ## The loops by index are the loops over the list -/

theorem readDigit_eq {a : List Digit} {i : Nat} (hi : i < a.length) :
    readDigit a i = .ok a[i] := by
  rw [readDigit, if_pos hi, List.getD_eq_getElem _ _ hi]

theorem writeDigit_eq {a : List Digit} {i : Nat} (hi : i < a.length) (d : Digit) :
    writeDigit a i d = .ok (a.take i ++ d :: a.drop (i + 1)) := by
  rw [writeDigit, if_pos hi, List.set_eq_take_append_cons_drop, if_pos hi]

theorem take_drop_written (a : List Digit) {i : Nat} (hi : i < a.length) (d : Digit) :
    (a.take i ++ d :: a.drop (i + 1)).take (i + 1) = a.take i ++ [d] ∧
      (a.take i ++ d :: a.drop (i + 1)).drop (i + 1) = a.drop (i + 1) ∧
      (a.take i ++ d :: a.drop (i + 1)).length = a.length := by
  have hlen : (a.take i ++ [d]).length = i + 1 := by
    rw [List.length_append, List.length_take, List.length_singleton]
    omega
  rw [List.append_cons]
  refine ⟨List.take_left' hlen, List.drop_left' hlen, ?_⟩
  rw [List.length_append, hlen, List.length_drop]
  omega

theorem lShiftFrom_eq (bits fuel : Nat) : ∀ (i : Nat) (crr : Digit) (a : List Digit),
    a.length < fuel + i → i ≤ a.length →
    lShiftFrom bits a.length fuel i crr a =
      .ok (a.take i ++ lShiftLoop bits (a.drop i) crr) := by
  induction fuel with
  | zero =>
    intro i crr a hfuel hi
    omega
  | succ fuel ih =>
    intro i crr a hfuel hi
    rw [lShiftFrom]
    by_cases hlt : i < a.length
    · obtain ⟨htake, hdrop, hlen⟩ := take_drop_written a hlt ((a[i] <<< bits) ||| crr)
      have hnext := ih (i + 1) (a[i] >>> (64 - bits))
        (a.take i ++ ((a[i] <<< bits) ||| crr) :: a.drop (i + 1)) (by omega) (by omega)
      rw [hlen, htake, hdrop] at hnext
      rw [if_pos hlt, except_bind_of_ok (readDigit_eq hlt),
        except_bind_of_ok (writeDigit_eq hlt _), hnext, List.drop_eq_getElem_cons hlt, lShiftLoop,
        List.append_assoc, List.singleton_append]
    · have hnil : a.drop i = [] := List.drop_eq_nil_of_le (by omega)
      rw [if_neg hlt, hnil, lShiftLoop, List.append_nil, List.take_of_length_le (by omega)]

theorem rShiftFrom_eq (bits fuel count : Nat) : ∀ (i : Nat) (a : List Digit),
    count < fuel + i → i < count → count ≤ a.length →
    rShiftFrom bits (count - 1) fuel i a =
      .ok (a.take i ++ rShiftLoop bits ((a.drop i).take (count - i)) ++ a.drop count) := by
  induction fuel with
  | zero =>
    intro i a hfuel hi hc
    omega
  | succ fuel ih =>
    intro i a hfuel hi hc
    have hlt : i < a.length := by omega
    rw [rShiftFrom]
    by_cases hlast : i < count - 1
    · have hlt' : i + 1 < a.length := by omega
      obtain ⟨htake, hdrop, hlen⟩ :=
        take_drop_written a hlt ((a[i] >>> bits) ||| (a[i + 1] <<< (64 - bits)))
      have hnext := ih (i + 1)
        (a.take i ++ ((a[i] >>> bits) ||| (a[i + 1] <<< (64 - bits))) :: a.drop (i + 1))
        (by omega) (by omega) (by rw [hlen]; exact hc)
      have hrest : (a.take i ++ ((a[i] >>> bits) ||| (a[i + 1] <<< (64 - bits))) ::
          a.drop (i + 1)).drop count = a.drop count := by
        rw [show count = i + 1 + (count - (i + 1)) by omega, ← List.drop_drop, hdrop,
          List.drop_drop]
      have hwindow : (a.drop i).take (count - i) =
          a[i] :: a[i + 1] :: (a.drop (i + 2)).take (count - i - 2) := by
        rw [List.drop_eq_getElem_cons hlt, List.drop_eq_getElem_cons hlt',
          show count - i = count - i - 2 + 1 + 1 by omega, List.take_succ_cons,
          List.take_succ_cons]
        rfl
      have hwindow' : (a.drop (i + 1)).take (count - (i + 1)) =
          a[i + 1] :: (a.drop (i + 2)).take (count - i - 2) := by
        rw [List.drop_eq_getElem_cons hlt',
          show count - (i + 1) = count - i - 2 + 1 by omega, List.take_succ_cons]
      rw [htake, hdrop, hrest, hwindow'] at hnext
      rw [if_pos hlast, except_bind_of_ok (readDigit_eq hlt),
        except_bind_of_ok (readDigit_eq hlt'), except_bind_of_ok (writeDigit_eq hlt _), hnext,
        hwindow, rShiftLoop]
      simp only [List.append_assoc, List.cons_append, List.nil_append]
    · -- the digit after the loop
      have hwindow : (a.drop i).take (count - i) = [a[i]] := by
        rw [List.drop_eq_getElem_cons hlt, show count - i = 0 + 1 by omega, List.take_succ_cons,
          List.take_zero]
      rw [if_neg hlast, except_bind_of_ok (readDigit_eq hlt), writeDigit_eq hlt, hwindow,
        rShiftLoop, show count = i + 1 by omega, List.append_assoc, List.singleton_append]

theorem rShiftFrom_undef (bits fuel : Nat) {last : Nat} : ∀ (i : Nat) (a : List Digit),
    a.length ≤ fuel + i → i < a.length → a.length ≤ last →
    rShiftFrom bits last (fuel + 1) i a = .error .undef := by
  induction fuel with
  | zero =>
    intro i a hfuel hi hc
    omega
  | succ fuel ih =>
    intro i a hfuel hi hc
    rw [rShiftFrom, if_pos (by omega), except_bind_of_ok (readDigit_eq hi)]
    by_cases hlt : i + 1 < a.length
    · have hlen := (take_drop_written a hi ((a[i] >>> bits) ||| (a[i + 1] <<< (64 - bits)))).2.2
      rw [except_bind_of_ok (readDigit_eq hlt), except_bind_of_ok (writeDigit_eq hi _)]
      apply ih
      · rw [hlen]
        omega
      · rw [hlen]
        exact hlt
      · rw [hlen]
        exact hc
    · apply except_bind_of_error
      rw [readDigit, if_neg hlt]

/-! ## The two functions by index -/

theorem sizeSub_of_le {a b : Nat} (ha : a < 2 ^ 64) (h : b ≤ a) : sizeSub a b = a - b := by
  rw [sizeSub, show a + 2 ^ 64 - b = a - b + 2 ^ 64 by omega, Nat.add_mod_right,
    Nat.mod_eq_of_lt (by omega)]

theorem memmove_undef {mem : List (BitVec 8)} {dst src len : Nat}
    (h : mem.length < dst + len ∨ mem.length < src + len) :
    memmove mem dst src len = .error .undef := by
  rw [memmove, if_neg (by omega)]

variable {a : List Digit}

theorem moveUp {i : Nat} (h32 : a.length ≤ 32) (hi : i ≤ 8 * a.length) :
    (do
      let mem ← memmove (toBytes a) i 0 (sizeSub (a.length * 8) i)
      memzero mem 0 i) = .ok (List.replicate i 0 ++ (toBytes a).take (8 * a.length - i)) := by
  have hlen := length_toBytes a
  have hsub : sizeSub (a.length * 8) i = 8 * a.length - i := by
    rw [sizeSub_of_le (by omega) (by omega), Nat.mul_comm]
  have hmove : memmove (toBytes a) i 0 (sizeSub (a.length * 8) i) =
      .ok ((toBytes a).take i ++ (toBytes a).take (8 * a.length - i)) := by
    rw [memmove, hsub, if_pos (by omega), List.drop_zero, Buffer.splice,
      List.drop_eq_nil_of_le (by rw [List.length_take]; omega), List.append_nil]
  have hpart : ((toBytes a).take i).length = i := by
    rw [List.length_take]
    omega
  rw [except_bind_of_ok hmove, memzero, if_pos (by
    rw [List.length_append, hpart, List.length_take]; omega), Buffer.splice, List.take_zero,
    List.nil_append, List.length_replicate, Nat.zero_add, List.drop_left' hpart]

theorem moveDown {i : Nat} (h32 : a.length ≤ 32) (hi : i ≤ 8 * a.length) :
    (do
      let mem ← memmove (toBytes a) 0 i (sizeSub (a.length * 8) i)
      memzero mem (sizeSub (a.length * 8) i) i) =
      .ok ((toBytes a).drop i ++ List.replicate i 0) := by
  have hlen := length_toBytes a
  have hsub : sizeSub (a.length * 8) i = 8 * a.length - i := by
    rw [sizeSub_of_le (by omega) (by omega), Nat.mul_comm]
  have hdrop : ((toBytes a).drop i).length = 8 * a.length - i := by
    rw [List.length_drop, hlen]
  have hmove : memmove (toBytes a) 0 i (sizeSub (a.length * 8) i) =
      .ok ((toBytes a).drop i ++ (toBytes a).drop (8 * a.length - i)) := by
    rw [memmove, hsub, if_pos (by omega), List.take_of_length_le (by omega), Buffer.splice,
      List.take_zero, List.nil_append, Nat.zero_add, hdrop]
  have hrest : (8 * a.length - i) + i = ((toBytes a).drop i ++
      (toBytes a).drop (8 * a.length - i)).length := by
    rw [List.length_append, hdrop, List.length_drop]
    omega
  rw [except_bind_of_ok hmove, memzero, hsub, if_pos (by omega), Buffer.splice,
    List.length_replicate, List.take_left' hdrop, hrest, List.drop_length, List.append_nil]

theorem bnDigitsLShiftIndexed_eq (h32 : a.length ≤ 32) (bits : Nat) :
    bnDigitsLShiftIndexed a bits = bnDigitsLShift a bits := by
  rw [bnDigitsLShiftIndexed, bnDigitsLShift]
  simp only
  by_cases h0 : a.length = 0 ∨ bits = 0
  · rw [if_pos h0, if_pos h0]
  · rw [if_neg h0, if_neg h0]
    by_cases hmove : bits % 8 = 0 ∨ 64 < bits
    · rw [if_pos hmove, if_pos hmove]
      by_cases hi : 8 * a.length < bits / 8
      · have hundef : memmove (toBytes a) (bits / 8) 0 (sizeSub (a.length * 8) (bits / 8)) =
            .error .undef := memmove_undef (Or.inl (by rw [length_toBytes]; omega))
        rw [if_pos hi, except_bind_of_error hundef]
      · have hlen : (ofBytes (List.replicate (bits / 8) 0 ++
            (toBytes a).take (8 * a.length - bits / 8))).length = a.length := by
          rw [length_ofBytes, List.length_append, List.length_replicate, List.length_take,
            length_toBytes]
          omega
        rw [if_neg hi, ← bind_assoc, except_bind_of_ok (moveUp h32 (Nat.not_lt.mp hi))]
        generalize ofBytes (List.replicate (bits / 8) 0 ++
          (toBytes a).take (8 * a.length - bits / 8)) = a' at hlen
        by_cases h8 : bits % 8 = 0
        · rw [if_pos h8, if_pos h8]
        · rw [if_neg h8, if_neg h8, ← hlen]
          by_cases hskip : bits / 8 / 8 ≤ a'.length
          · exact lShiftFrom_eq _ _ _ _ _ (by omega) hskip
          · omega
    · rw [if_neg hmove, if_neg hmove]
      have hloop := lShiftFrom_eq bits (a.length + 1) 0 0 a (by omega) (Nat.zero_le _)
      rw [List.take_zero, List.nil_append, List.drop_zero] at hloop
      exact hloop

theorem bnDigitsRShiftIndexed_eq (h32 : a.length ≤ 32) (bits : Nat) :
    bnDigitsRShiftIndexed a bits = bnDigitsRShift a bits := by
  rw [bnDigitsRShiftIndexed, bnDigitsRShift]
  simp only
  by_cases h0 : a.length = 0 ∨ bits = 0
  · rw [if_pos h0, if_pos h0]
  · have hpos : 0 < a.length := by omega
    rw [if_neg h0, if_neg h0]
    by_cases hmove : bits % 8 = 0 ∨ 64 < bits
    · rw [if_pos hmove, if_pos hmove]
      by_cases hi : 8 * a.length < bits / 8
      · have hundef : memmove (toBytes a) 0 (bits / 8) (sizeSub (a.length * 8) (bits / 8)) =
            .error .undef := memmove_undef (Or.inr (by rw [length_toBytes]; omega))
        rw [if_pos hi, except_bind_of_error hundef]
      · have hlen : (ofBytes ((toBytes a).drop (bits / 8) ++
            List.replicate (bits / 8) 0)).length = a.length := by
          rw [length_ofBytes, List.length_append, List.length_replicate, List.length_drop,
            length_toBytes]
          omega
        rw [if_neg hi, ← bind_assoc, except_bind_of_ok (moveDown h32 (Nat.not_lt.mp hi))]
        generalize ofBytes ((toBytes a).drop (bits / 8) ++ List.replicate (bits / 8) 0) = a'
          at hlen
        by_cases h8 : bits % 8 = 0
        · rw [if_pos h8, if_pos h8]
        · have hcount : sizeSub a.length (bits / 8 / 8) = a'.length - bits / 8 / 8 := by
            rw [sizeSub_of_le (by omega) (by omega), hlen]
          rw [if_neg h8, if_neg h8, hcount, ← hlen]
          by_cases hzero : a'.length - bits / 8 / 8 = 0
          · -- the bound is the largest number of `size_t`
            rw [if_pos hzero, hzero]
            exact rShiftFrom_undef _ _ _ _ (by omega) (by omega) (by rw [sizeSub]; omega)
          · have hloop := rShiftFrom_eq (bits - bits / 8 * 8) (a'.length + 1)
              (a'.length - bits / 8 / 8) 0 a' (by omega) (by omega) (by omega)
            rw [List.take_zero, List.nil_append, List.drop_zero, Nat.sub_zero] at hloop
            rw [if_neg hzero, sizeSub_of_le (by omega) (by omega), hloop]
    · have hloop := rShiftFrom_eq bits (a.length + 1) a.length 0 a (by omega) hpos le_rfl
      rw [List.take_zero, List.nil_append, List.drop_zero, Nat.sub_zero, List.take_length,
        List.drop_length, List.append_nil] at hloop
      rw [if_neg hmove, if_neg hmove, sizeSub_of_le (by omega) (by omega), hloop]

namespace Bn

/-! ## `bn_l_shift` and `bn_r_shift` -/

/-- `bn_l_shift` -/
def bnLShiftIndexed (bits : Nat) : BnM Bn Unit := fun b =>
  if b.digits = 0 then .ok () b
  else
    let digits := min b.count (b.digits + 1 + bits / 64)
    (do
      change fun b => b.bnInitDigitsChecked digits
      let num ← look fun b => window b.count b.num.toList 0 digits
      let l ← look fun _ => bnDigitsLShiftIndexed num bits
      change fun b => b.store l
      change fun b => b.bnUpdateDigitsChecked digits) b

/-- `bn_r_shift` -/
def bnRShiftIndexed (bits : Nat) : BnM Bn Unit := fun b =>
  if b.digits = 0 then .ok () b
  else
    (do
      let num ← look fun b => window b.count b.num.toList 0 b.digits
      let l ← look fun _ => bnDigitsRShiftIndexed num bits
      change fun b => b.store l
      change fun b => b.bnUpdateDigitsChecked b.digits) b

theorem bnLShiftIndexed_eq {b : Bn} (hb : b.WF) (bits : Nat) :
    bnLShiftIndexed bits b = bnLShift bits b := by
  rw [← bnLShiftChecked_eq hb.digits_le, bnLShiftIndexed, bnLShiftChecked]
  split
  · rfl
  · have hc := hb.count_le
    generalize hk : min b.count (b.digits + 1 + bits / 64) = k
    have hkc : k ≤ (b.bnInitDigits k).count := by
      rw [bnInitDigits_count]
      omega
    have h32 : ((b.bnInitDigits k).num.toList.take k).length ≤ 32 := by
      rw [List.length_take, NumArray.length_toList]
      omega
    have hinit := change_ok (f := fun b => b.bnInitDigitsChecked k)
      (bnInitDigitsChecked_eq hb.digits_le k)
    have hwindow := look_ok (f := fun b => window b.count b.num.toList 0 k)
      (window_zero (b.bnInitDigits k).num.toList hkc)
    simp only
    rw [bind_of_ok hinit, bind_of_ok hwindow, bnDigitsLShiftIndexed_eq h32, bind_of_ok hinit,
      bind_of_ok hwindow]

theorem bnRShiftIndexed_eq {b : Bn} (hb : b.WF) (bits : Nat) :
    bnRShiftIndexed bits b = bnRShift bits b := by
  rw [← bnRShiftChecked_eq hb.digits_le, bnRShiftIndexed, bnRShiftChecked]
  split
  · rfl
  · have h32 : (b.num.toList.take b.digits).length ≤ 32 := by
      rw [List.length_take, NumArray.length_toList]
      omega
    have hwindow := look_ok (f := fun b => window b.count b.num.toList 0 b.digits)
      (window_zero b.num.toList hb.digits_le)
    rw [bind_of_ok hwindow, bnDigitsRShiftIndexed_eq h32, bind_of_ok hwindow]

/-- A call returns, with every block and every digit inside its array, and leaves `value`. -/
def Shifts (run : EStateM.Result Err Bn Unit) (b : Bn) (value : Nat) : Prop :=
  ∃ t, run = .ok () t ∧ t.WF ∧ t.count = b.count ∧ t.value = value

theorem bnLShift_exact_iff {b : Bn} (hb : b.WF) (k : Nat) :
    Shifts (bnLShiftIndexed k b) b (b.value * 2 ^ k % 2 ^ (64 * b.count)) ↔
      b.value = 0 ∨ k < 64 * b.count + 8 := by
  rw [bnLShiftIndexed_eq hb]
  by_cases h0 : b.value = 0
  · refine iff_of_true ⟨b, ?_, hb, rfl, ?_⟩ (Or.inl h0)
    · rw [bnLShift, if_pos (hb.digits_eq_zero.mpr h0)]
    · rw [h0, Nat.zero_mul, Nat.zero_mod]
  · by_cases hk : k < 64 * b.count + 8
    · refine iff_of_true ?_ (Or.inr hk)
      have hnum : Num.bnLShift k b.abs =
          .ok () ⟨b.count, b.value * 2 ^ k % 2 ^ (64 * b.count)⟩ := by
        rw [Num.bnLShift, abs_val, if_neg h0, abs_count, if_neg (by omega)]
        rfl
      obtain ⟨t, ht, habs, hwf⟩ := (bnLShift_refines k).ok hb hnum
      exact ⟨t, ht, hwf, congrArg Num.count habs, congrArg Num.val habs⟩
    · refine iff_of_false ?_ fun h => h.elim h0 hk
      rintro ⟨t, ht, -⟩
      have hrun := (bnLShift_refines k b hb).1
      rw [ht, Num.bnLShift, abs_val, if_neg h0, abs_count, if_pos (by omega)] at hrun
      cases hrun

theorem bnRShift_exact_iff {b : Bn} (hb : b.WF) (k : Nat) :
    Shifts (bnRShiftIndexed k b) b (b.value / 2 ^ k) ↔ b.value = 0 ∨ k ≤ 64 * b.digits := by
  rw [bnRShiftIndexed_eq hb]
  by_cases h0 : b.value = 0
  · refine iff_of_true ⟨b, ?_, hb, rfl, ?_⟩ (Or.inl h0)
    · rw [bnRShift, if_pos (hb.digits_eq_zero.mpr h0)]
    · rw [h0, Nat.zero_div]
  · by_cases hk : k ≤ 64 * b.digits
    · refine iff_of_true ?_ (Or.inr hk)
      have hnum : Num.bnRShift k b.abs = .ok () ⟨b.count, b.value / 2 ^ k⟩ := by
        rw [Num.bnRShift, abs_val, if_neg h0, ← hb.digits_eq, if_neg (by omega), abs_count]
      obtain ⟨t, ht, habs, hwf⟩ := (bnRShift_refines k).ok hb hnum
      exact ⟨t, ht, hwf, congrArg Num.count habs, congrArg Num.val habs⟩
    · refine iff_of_false ?_ fun h => h.elim h0 hk
      rintro ⟨t, ht, -⟩
      have hrun := (bnRShift_refines k b hb).1
      rw [ht, Num.bnRShift, abs_val, if_neg h0, ← hb.digits_eq, if_pos (by omega)] at hrun
      cases hrun

/-- What the two shifts do with `b` and their amounts. -/
structure ShiftExact (b : Bn) (k l : Nat) : Prop where
  left : Shifts (bnLShiftIndexed k b) b (b.value * 2 ^ k % 2 ^ (64 * b.count))
  right : Shifts (bnRShiftIndexed l b) b (b.value / 2 ^ l)

/-- Zero can be shifted by any amount; otherwise the left shift is bounded by the capacity and seven
bits, the right shift by the digits in use. -/
theorem shiftExact_iff {b : Bn} (hb : b.WF) (k l : Nat) :
    ShiftExact b k l ↔
      (b.value = 0 ∨ k < 64 * b.count + 8) ∧ (b.value = 0 ∨ l ≤ 64 * b.digits) := by
  rw [← bnLShift_exact_iff hb, ← bnRShift_exact_iff hb]
  exact ⟨fun h => ⟨h.left, h.right⟩, fun h => ⟨h.1, h.2⟩⟩

/-- 5 on one digit. -/
theorem shiftExact_five : ShiftExact (oneDigit 1 5) 62 64 := by
  have h5 : (oneDigit 1 5).WF := oneDigit_wf (by decide) (by decide) (by decide)
  apply (shiftExact_iff h5 62 64).mpr
  exact ⟨Or.inr (by decide), Or.inr (by decide)⟩

/-- 5 shifted right by 65 bits leaves the array. -/
theorem not_forall_shiftExact : ¬ ∀ (b : Bn) (k l : Nat), b.WF → ShiftExact b k l := by
  intro h
  have h5 : (oneDigit 1 5).WF := oneDigit_wf (by decide) (by decide) (by decide)
  have hright := (bnRShift_exact_iff h5 65).mp (h _ 0 65 h5).right
  revert hright
  decide

end Bn

end BigNum

/-!
# Bitwise operations

`bn_and` clears one digit above the shorter operand and leaves what a longer number has above that
digit.  `bn_is_bit_set` looks at `num[0]` before it looks at the number of digits, so for zero it
reads what the array held before.
-/

namespace BigNum.Bn

open Limbs StateErr BnOps

variable {n : Arg Bn} {b : Bn}

theorem bnAnd_exact_iff (hn : n.WF) (hb : b.WF) :
    (∀ t, bnAnd n b = .ok () t → t.value = b.value &&& (n.get b).value) ↔
      b.digits ≤ (n.get b).digits + 1 := by
  have hy := hn.get hb
  have hnum : Num.bnAnd (n.map abs) b.abs = .ok () ⟨b.count, (b.value &&& (n.get b).value) +
      2 ^ (64 * (min b.digits (n.get b).digits + 1)) *
        (b.value / 2 ^ (64 * (min b.digits (n.get b).digits + 1)))⟩ := by
    rw [Num.bnAnd, Arg.get_map, abs_val, abs_val, ← hb.digits_eq, ← hy.digits_eq]
    rfl
  obtain ⟨t, ht, habs, -⟩ := (bnAnd_refines hn).ok hb hnum
  have hval : t.value = _ := congrArg Num.val habs
  have hpos := Nat.two_pow_pos (64 * (min b.digits (n.get b).digits + 1))
  have hhigh : b.digits ≤ (n.get b).digits + 1 ↔
      b.value / 2 ^ (64 * (min b.digits (n.get b).digits + 1)) = 0 := by
    rw [Nat.div_eq_zero_iff_lt hpos, ← limbCount_le_iff (by decide), ← hb.digits_eq]
    omega
  rw [hhigh]
  constructor
  · intro h
    have hzero := Nat.add_left_cancel ((hval.symm.trans (h t ht)).trans (Nat.add_zero _).symm)
    exact (Nat.mul_eq_zero.mp hzero).resolve_left hpos.ne'
  · intro hzero t' ht'
    rw [ht] at ht'
    cases ht'
    rw [hval, hzero, Nat.mul_zero, Nat.add_zero]

theorem value_of_refines {α : Type} {f : BnM Bn α} {g : BnM Num α} (h : Refines f g) (hb : b.WF)
    {a : α} {t : Bn} (ht : f b = .ok a t) : g b.abs = .ok a t.abs := by
  rw [← (h b hb).1, ht]
  rfl

theorem bnOrXor_value {op : Nat → Nat → Nat} {n : Arg Num} {x t : Num}
    (h : Num.bnOrXor op n x = .ok () t) : t.val = op x.val (n.get x).val := by
  rw [Num.bnOrXor] at h
  split at h
  · cases h
  · cases h
    rfl

theorem bnOr_exact (hn : n.WF) (hb : b.WF) {t : Bn} (ht : bnOr n b = .ok () t) :
    t.value = b.value ||| (n.get b).value := by
  have h := bnOrXor_value (value_of_refines (bnOr_refines hn) hb ht)
  rwa [Arg.get_map] at h

theorem bnXor_exact (hn : n.WF) (hb : b.WF) {t : Bn} (ht : bnXor n b = .ok () t) :
    t.value = b.value ^^^ (n.get b).value := by
  have h := bnOrXor_value (value_of_refines (bnXor_refines hn) hb ht)
  rwa [Arg.get_map] at h

theorem bnBitSet_exact (hb : b.WF) {bit : Nat} {v : Bool} {t : Bn}
    (ht : bnBitSet bit v b = .ok () t) (j : Nat) :
    t.value.testBit j = if j = bit then v else b.value.testBit j := by
  have h := value_of_refines (bnBitSet_refines bit v) hb ht
  rw [Num.bnBitSet] at h
  split at h
  · cases h
  · injection h with _ h
    have hval : t.value = if v then b.value ||| 2 ^ bit
        else if b.value.testBit bit then b.value ^^^ 2 ^ bit else b.value :=
      (congrArg Num.val h).symm
    rw [hval]
    cases v with
    | true =>
      rw [if_pos rfl, Nat.testBit_or, Nat.testBit_two_pow]
      by_cases hj : j = bit
      · rw [if_pos hj, hj, decide_eq_true rfl, Bool.or_true]
      · rw [if_neg hj, decide_eq_false (Ne.symm hj), Bool.or_false]
    | false =>
      rw [if_neg (by decide)]
      by_cases hj : j = bit
      · rw [if_pos hj, hj]
        by_cases hset : b.value.testBit bit = true
        · rw [if_pos hset, Nat.testBit_xor, Nat.testBit_two_pow_self, hset, Bool.xor_self]
        · rw [if_neg hset]
          exact Bool.eq_false_of_not_eq_true hset
      · rw [if_neg hj]
        split
        · rw [Nat.testBit_xor, Nat.testBit_two_pow, decide_eq_false (Ne.symm hj), Bool.xor_false]
        · rfl

theorem bnIsBitSet_exact_iff (hb : b.WF) (bit : Nat) :
    bnIsBitSet b bit = b.value.testBit bit ↔
      (b.value = 0 → bit < 64 → (b.dig 0).getLsbD bit = false) := by
  have hd : BigNum.digits b = b.digits := hb.length_sig
  have hbits : b.value.testBit bit = (b.sig.getD (bit / 64) 0).getLsbD (bit % 64) :=
    testBit_val (by decide) b.sig bit
  rw [bnIsBitSet, hd]
  by_cases h64 : bit < 64
  · have hlow : (BnOps.low b &&& ((1 : Digit) <<< bit) != 0) = (b.dig 0).getLsbD bit := by
      rw [Bool.eq_iff_iff, bne_iff_ne, ByValue.and_shift_ne_zero _ h64]
      rfl
    rw [if_pos h64, hlow]
    by_cases h0 : b.value = 0
    · rw [h0, Nat.zero_testBit]
      exact ⟨fun h _ _ => h, fun h => h rfl h64⟩
    · have hpos : 0 < b.digits := Nat.pos_of_ne_zero fun h => h0 (hb.digits_eq_zero.mp h)
      refine iff_of_true ?_ fun h => absurd h h0
      rw [hbits, Nat.div_eq_of_lt h64, Nat.mod_eq_of_lt h64, dig_eq_sig b hpos]
  · rw [if_neg h64]
    refine iff_of_true ?_ fun _ h => absurd h h64
    by_cases hout : b.digits * 64 ≤ bit
    · have hlt : b.value < 2 ^ bit :=
        hb.value_lt.trans_le (Nat.pow_le_pow_right (by decide) (by omega))
      rw [if_pos hout, Nat.testBit_lt_two_pow hlt]
    · rw [if_neg hout, Bool.eq_iff_iff, bne_iff_ne,
        ByValue.and_shift_ne_zero _ (Nat.mod_lt _ (by decide)), hbits]
      rfl

/-- What the five functions do with `b`, an operand, and a bit. -/
structure BitwiseExact (n : Arg Bn) (b : Bn) (bit : Nat) (v : Bool) : Prop where
  and : ∀ t, bnAnd n b = .ok () t → t.value = b.value &&& (n.get b).value
  or : ∀ t, bnOr n b = .ok () t → t.value = b.value ||| (n.get b).value
  xor : ∀ t, bnXor n b = .ok () t → t.value = b.value ^^^ (n.get b).value
  bitSet : ∀ t, bnBitSet bit v b = .ok () t →
    ∀ j, t.value.testBit j = if j = bit then v else b.value.testBit j
  isBitSet : bnIsBitSet b bit = b.value.testBit bit

/-- All five are right when the number has at most one digit more than the operand, and it is not
zero or the low digit of its array has the bit clear. -/
theorem bitwiseExact_iff (hn : n.WF) (hb : b.WF) (bit : Nat) (v : Bool) :
    BitwiseExact n b bit v ↔ b.digits ≤ (n.get b).digits + 1 ∧
      (b.value = 0 → bit < 64 → (b.dig 0).getLsbD bit = false) := by
  rw [← bnAnd_exact_iff hn hb, ← bnIsBitSet_exact_iff hb]
  constructor
  · intro h
    exact ⟨h.and, h.isBitSet⟩
  · rintro ⟨hand, hset⟩
    exact ⟨hand, fun _ => bnOr_exact hn hb, fun _ => bnXor_exact hn hb,
      fun _ => bnBitSet_exact hb, hset⟩

/-- 5 and 3. -/
theorem bitwiseExact_five : BitwiseExact (.val (oneDigit 1 3)) (oneDigit 1 5) 1 true := by
  have h5 : (oneDigit 1 5).WF := oneDigit_wf (by decide) (by decide) (by decide)
  have h3 : (oneDigit 1 3).WF := oneDigit_wf (by decide) (by decide) (by decide)
  apply (bitwiseExact_iff (argWF_val h3) h5 1 true).mpr
  exact ⟨by decide, fun h => absurd h (by decide)⟩

/-- Zero in an array whose first digit is 1 has the bit 0 set. -/
theorem not_forall_bitwiseExact :
    ¬ ∀ (n : Arg Bn) (b : Bn) (bit : Nat) (v : Bool), n.WF → b.WF → BitwiseExact n b bit v := by
  intro h
  have hzero : ({ oneDigit 1 1 with digits := 0 } : Bn).WF := wf_zero_digits (by decide)
  have hset := (h .self _ 0 true argWF_self hzero).isBitSet
  revert hset
  decide

end BigNum.Bn
