import Liblcb.Lib.Limbs

/-!
# Digit and digit array operations

`bn_digit_*` and `bn_digits_*` of `math/big_num.h` for the default build: 64-bit digits with a
128-bit compiler type for products and quotients, so `BN_DIGIT_BITS` is 64, `BN_DIGIT_SIZE` is 8,
`BN_BIT_LEN` is 2048 and `BN_MAX_DIGITS` is 32 throughout.  An array argument `a, count` is the list of its
first `count` digits; `&a[i]` is `drop i`.
-/

namespace BigNum

open Limbs

/-- `bn_digit_t`. -/
abbrev Digit := BitVec 64

abbrev maxDigit : Digit := ~~~0#64

/-- How a call ends when it does not return 0: an error code, an access the C text leaves
undefined, or a loop that has not ended. -/
inductive Err where
  | einval
  | eoverflow
  | code (n : Int)
  | undef
  | noReturn
  deriving DecidableEq, Repr

/-- Whether an error is a code that the function returned, and not a run without a defined end. -/
def Err.returned : Err → Bool
  | .undef => false
  | .noReturn => false
  | _ => true

/-! ## One digit -/

def bnDigitIsEven (digit : Digit) : Bool := digit &&& 1 == 0

def bnDigitIsPow2 (digit : Digit) : Bool := digit != 0 && digit &&& (digit - 1) == 0

/-- The masks of `bn_digit_ctz`, widest first, each with the count it takes away. -/
def ctzMasks : List (Digit × Nat) :=
  [(0x00000000ffffffff, 32), (0x0000ffff0000ffff, 16), (0x00ff00ff00ff00ff, 8),
   (0x0f0f0f0f0f0f0f0f, 4), (0x3333333333333333, 2), (0x5555555555555555, 1)]

def bnDigitCtz (digit : Digit) : Nat :=
  if digit = 0 then 64
  else
    let reg := digit &&& (0 - digit)
    ctzMasks.foldl (fun n m => if reg &&& m.1 ≠ 0 then n - m.2 else n) (63)

/-- The masks of `bn_digit_clz`, widest first, each with the count it takes away. -/
def clzMasks : List (Digit × Nat) :=
  [(0xffffffff00000000, 32), (0xffff0000ffff0000, 16), (0xff00ff00ff00ff00, 8),
   (0xf0f0f0f0f0f0f0f0, 4), (0xcccccccccccccccc, 2), (0xaaaaaaaaaaaaaaaa, 1)]

/-- The last test of the source does not narrow `reg`, which nothing reads after it. -/
def bnDigitClz (digit : Digit) : Nat :=
  if digit = 0 then 64
  else
    (clzMasks.foldl
      (fun (s : Digit × Nat) m => if s.1 &&& m.1 ≠ 0 then (s.1 &&& m.1, s.2 - m.2) else s)
      (digit, 63)).2

/-- `bn_digit_mult__int`: low and high digit of the product. -/
def bnDigitMult (a b : Digit) : Digit × Digit :=
  let tm : BitVec 128 := a.setWidth 128 * b.setWidth 128
  (tm.setWidth 64, (tm >>> 64).setWidth 64)

/-- `bn_digit_div__int_short`: low digit of the quotient of `dividend_hi:dividend_lo`. -/
def bnDigitDivShort (dividendLo dividendHi divisor : Digit) : Except Err Digit :=
  if divisor = 0 then .error .einval
  else
    let tm : BitVec 128 := (dividendHi.setWidth 128 <<< 64) ||| dividendLo.setWidth 128
    .ok ((tm / divisor.setWidth 128).setWidth 64)

/-! ## Digit arrays -/

/-- `bn_digits_calc_digits`: digits up to the last nonzero one. -/
def bnDigitsCalcDigits : List Digit → Nat
  | [] => 0
  | a :: as =>
    let n := bnDigitsCalcDigits as
    if n = 0 then (if a = 0 then 0 else 1) else n + 1

/-- `bn_digits_cmp`: sign of `a - b`, the highest differing digit decides. -/
def bnDigitsCmp : List Digit → List Digit → Ordering
  | a :: as, b :: bs => (bnDigitsCmp as bs).then (compare a.toNat b.toNat)
  | _, _ => .eq

def toBytes (a : List Digit) : List (BitVec 8) := limbs 8 (8 * a.length) (val a)

def ofBytes (bs : List (BitVec 8)) : List Digit := limbs 64 (bs.length / 8) (val bs)

def lShiftLoop (bits : Nat) : List Digit → Digit → List Digit
  | [], _ => []
  | tm :: as, crr => ((tm <<< bits) ||| crr) :: lShiftLoop bits as (tm >>> (64 - bits))

def bnDigitsLShift (a : List Digit) (bits : Nat) : Except Err (List Digit) :=
  if a.length = 0 ∨ bits = 0 then .ok a
  else if bits % 8 = 0 ∨ 64 < bits then
    let i := bits / 8
    -- memmove() of count * BN_DIGIT_SIZE - i bytes
    if 8 * a.length < i then .error .undef
    else
      let a := ofBytes (List.replicate i 0 ++ (toBytes a).take (8 * a.length - i))
      if bits % 8 = 0 then .ok a
      else .ok (a.take (i / 8) ++ lShiftLoop (bits - i * 8) (a.drop (i / 8)) 0)
  else .ok (lShiftLoop bits a 0)

def rShiftLoop (bits : Nat) : List Digit → List Digit
  | [] => []
  | [a] => [a >>> bits]
  | a :: a' :: as => ((a >>> bits) ||| (a' <<< (64 - bits))) :: rShiftLoop bits (a' :: as)

def bnDigitsRShift (a : List Digit) (bits : Nat) : Except Err (List Digit) :=
  if a.length = 0 ∨ bits = 0 then .ok a
  else if bits % 8 = 0 ∨ 64 < bits then
    let i := bits / 8
    if 8 * a.length < i then .error .undef
    else
      let a := ofBytes ((toBytes a).drop i ++ List.replicate i 0)
      if bits % 8 = 0 then .ok a
      else
        let count := a.length - i / 8
        -- the loop bound is count - 1 in size_t
        if count = 0 then .error .undef
        else .ok (rShiftLoop (bits - i * 8) (a.take count) ++ a.drop count)
  else .ok (rShiftLoop bits a)

def incLoop : List Digit → List Digit × Digit
  | [] => ([], 1)
  | a :: as =>
    let a := a + 1
    if 1 ≤ a then (a :: as, 0)
    else
      let r := incLoop as
      (a :: r.1, r.2)

/-- `bn_digits_add_digit`: `a += b`, with the carry. -/
def bnDigitsAddDigit (a : List Digit) (b : Digit) : List Digit × Digit :=
  match a with
  | [] => ([], 0)
  | a :: as =>
    if b = 0 then (a :: as, 0)
    else
      let a := a + b
      if b ≤ a then (a :: as, 0)
      else
        let r := incLoop as
        (a :: r.1, r.2)

/-- Loop body of `bn_digits_add`. -/
def addStep (a tm crr : Digit) : Digit × Digit :=
  let a := a + crr
  let crr : Digit := if a < crr then 1 else 0
  if tm = 0 then (a, crr)
  else
    let a := a + tm
    (a, if a < tm then 1 else crr)

/-- Hands the last carry of a loop over `bCount` digits on to the digits above them. -/
def carryOut (addRest : List Digit → Digit → List Digit × Digit) (bCount : Nat)
    (r : List Digit × Digit) : List Digit × Digit :=
  if r.2 ≠ 0 ∧ bCount < r.1.length then
    let t := addRest (r.1.drop bCount) r.2
    (r.1.take bCount ++ t.1, t.2)
  else r

/-- `bn_digits_add`: `a += b`, with the carry. -/
def bnDigitsAdd (a b : List Digit) : Except Err (List Digit × Digit) :=
  if b.length = 0 then .ok (a, 0)
  else if a.length < b.length then .error .eoverflow
  else .ok (carryOut bnDigitsAddDigit b.length (carryLoop addStep a b 0))

def decLoop : List Digit → Digit → List Digit × Digit
  | [], brrw => ([], brrw)
  | a :: as, brrw =>
    if brrw = 0 then (a :: as, brrw)
    else
      let a := a - brrw
      let r := decLoop as (if maxDigit - brrw < a then 1 else 0)
      (a :: r.1, r.2)

/-- `bn_digits_sub_digit`: `a -= b`, with the borrow. -/
def bnDigitsSubDigit (a : List Digit) (b : Digit) : List Digit × Digit :=
  match a with
  | [] => ([], 0)
  | a :: as =>
    if b = 0 then (a :: as, 0)
    else
      let a := a - b
      let r := decLoop as (if maxDigit - b < a then 1 else 0)
      (a :: r.1, r.2)

/-- Loop body of `bn_digits_sub__int`. -/
def subStep (a tm brrw : Digit) : Digit × Digit :=
  let a := a - brrw
  let brrw : Digit := if maxDigit - brrw < a then 1 else 0
  if tm = 0 then (a, brrw)
  else
    let a := a - tm
    (a, if maxDigit - tm < a then 1 else brrw)

/-- `bn_digits_sub__int` for two different arrays: `a -= b`, with the borrow. -/
def bnDigitsSubInt (a b : List Digit) : List Digit × Digit :=
  if b.length = 0 then (a, 0)
  else carryOut bnDigitsSubDigit b.length (carryLoop subStep a b 0)

def bnDigitsSub (a b : List Digit) : Except Err (List Digit × Digit) :=
  if b.length = 0 then .ok (a, 0)
  else if a.length < b.length then .error .eoverflow
  else .ok (bnDigitsSubInt a b)

def multDigitLoop (d : Digit) : List Digit → Digit → List Digit
  | [], _ => []
  | a :: as, crr =>
    let t := if a ≠ 0 then bnDigitMult d a else (a, 0)
    let a := t.1 + crr
    a :: multDigitLoop d as ((if a < crr then 1 else 0) + t.2)

/-- `bn_digits_mult_digit__int`: `a *= d`. -/
def bnDigitsMultDigit (a : List Digit) (d : Digit) : Except Err (List Digit) :=
  if a.length = 0 then .ok a
  else if bnDigitIsPow2 d then bnDigitsLShift a (bnDigitCtz d)
  else .ok (multDigitLoop d a 0)

/-- Loop body of `bn_digits_add_digit_mult__int`. -/
def addMultStep (d a b crr : Digit) : Digit × Digit :=
  let t := if b ≠ 0 then bnDigitMult d b else (0, 0)
  let a := a + crr
  let crr := (if a < crr then 1 else 0) + t.2
  let a := a + t.1
  (a, if a < t.1 then crr + 1 else crr)

/-- `bn_digits_add_digit_mult__int`: `a += b * d`, the carry out of `a` is dropped.  The source
ignores the error code of `bn_digits_add`. -/
def bnDigitsAddDigitMult (a b : List Digit) (d : Digit) : List Digit :=
  if d = 1 then
    match bnDigitsAdd a b with
    | .ok r => r.1
    | .error _ => a
  else (carryOut bnDigitsAddDigit b.length (carryLoop (addMultStep d) a b 0)).1

/-- Loop body of `bn_digits_sub_digit_mult__int`. -/
def subMultStep (d a b brrw : Digit) : Digit × Digit :=
  let a := a - brrw
  let brrw : Digit := if maxDigit - brrw < a then 1 else 0
  if b = 0 then (a, brrw)
  else
    let t := bnDigitMult d b
    let brrw := brrw + t.2
    let a := a - t.1
    (a, if maxDigit - t.1 < a then brrw + 1 else brrw)

/-- `bn_digits_sub_digit_mult__int`: `a -= b * d`, with the borrow. -/
def bnDigitsSubDigitMult (a b : List Digit) (d : Digit) : List Digit × Digit :=
  if d = 1 then bnDigitsSubInt a b
  else carryOut bnDigitsSubDigit b.length (carryLoop (subMultStep d) a b 0)

end BigNum
