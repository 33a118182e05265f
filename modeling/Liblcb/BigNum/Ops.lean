import Liblcb.BigNum.Bn

/-!
# Joint sparse form

`bn_calc_jsf` recodes two numbers at once.  Its local copies are read through `num[0]` also after
they have no digits left, so the loop is written over any pair of number sources and is run on `Bn`
and on values.
-/

namespace BigNum

open Limbs StateErr

/-- The recoded digit of a number whose low bits are `l` beside one whose low bits are `l'`. -/
def jsfItem (l l' : Nat) : Int :=
  if l % 2 = 0 then 0
  else if (l = 3 ∨ l = 5) ∧ l' % 4 = 2 then -(2 - (l % 4 : Nat) : Int)
  else 2 - (l % 4 : Nat)

/-- The carry `d` after the digit `itm`. -/
def jsfCarry (d itm : Int) : Int := if 2 * d = 1 + itm then 1 - d else d

/-- `((int8_t)num[0] + d) & 0x7`. -/
def jsfLow (low : Digit) (d : Int) : Nat := (((low.toNat : Int) + d) % 8).toNat

/-- What the loop of `bn_calc_jsf` does with a local number. -/
structure JsfSource (T : Type) where
  isZero : T → Bool
  low : T → Digit
  half : T → T

/-- The loop of `bn_calc_jsf` from item `i` on; `arr` is `jsf_arr`. -/
def jsfLoop {T : Type} (src : JsfSource T) (offset : Nat) :
    Nat → Nat → T → T → Int → Int → List Int → Except Err (List Int × Nat)
  | 0, _, _, _, _, _, _ => .error .noReturn
  | fuel + 1, i, a, b, d0, d1, arr =>
    if (!src.isZero a || d0 != 0) || (!src.isZero b || d1 != 0) then
      if arr.length ≤ i + offset then .error .undef
      else
        let l0 := jsfLow (src.low a) d0
        let l1 := jsfLow (src.low b) d1
        let arr := (arr.set i (jsfItem l0 l1)).set (i + offset) (jsfItem l1 l0)
        jsfLoop src offset fuel (i + 1) (src.half a) (src.half b)
          (jsfCarry d0 (jsfItem l0 l1)) (jsfCarry d1 (jsfItem l1 l0)) arr
    else .ok (arr, i)

/-- What `bn_calc_jsf` returns through its pointers. -/
structure Jsf where
  arr : List Int
  itemsCnt : Nat
  offset : Nat

/-- `bn_calc_jsf` on two sources of the given bit lengths. -/
def calcJsf {T : Type} (src : JsfSource T) (bitsA bitsB : Nat) (a b : T) (jsfArrSize : Nat) :
    Except Err Jsf :=
  let offset := max bitsA bitsB + 1
  if jsfArrSize < 2 * offset then .error .eoverflow
  else do
    -- every round writes two items, so `jsf_arr_size` bounds the rounds
    let r ← jsfLoop src offset (jsfArrSize + 1) 0 a b 0 0 (List.replicate jsfArrSize 0)
    pure ⟨r.1, r.2, offset⟩

namespace Bn

/-- The locals `tmA` and `tmB`. -/
def jsfSource : JsfSource Bn where
  isZero b := b.digits == 0
  low b := b.dig 0
  half b := stateOf (bnRShift 1 b)

def calcBits (b : Bn) : Nat :=
  if b.digits = 0 then 0 else 64 * b.digits - bnDigitClz (b.dig (b.digits - 1))

def bnCalcJsf (J : Junk) (a b : Bn) (jsfArrSize : Nat) : Except Err Jsf :=
  calcJsf jsfSource a.calcBits b.calcBits (stateOf (bnAssignInit a (uninit (J 0))))
    (stateOf (bnAssignInit b (uninit (J 1)))) jsfArrSize

end Bn

/-- A number that is read through a low digit: once it is zero, that digit is whatever `num[0]`
was left with. -/
structure LowNat where
  val : Nat
  stale : Digit

namespace LowNat

def jsfSource : JsfSource LowNat where
  isZero x := x.val == 0
  low x := if x.val = 0 then x.stale else BitVec.ofNat 64 x.val
  half x := if x.val = 0 then x else ⟨x.val / 2, 0⟩

end LowNat

end BigNum

/-!
# Numbers by value, and code that runs on both kinds of numbers

`Num` is a number without its stale digits: a capacity and a value.  Its operations say what the
digit loops of `Bn` compute, including where the source leaves the textbook result.  `BnOps` is the
interface the functions built on top of these operations use, so that each of them is written once
and runs on `Bn` as the source does and on `Num` as a specification.
-/

namespace BigNum

open Limbs StateErr

/-- A number of `count` digits. -/
structure Num where
  count : Nat
  val : Nat
  deriving DecidableEq, Repr

/-- Number of bits of `v`. -/
def bitCount (v : Nat) : Nat := if v = 0 then 0 else v.log2 + 1

/-- Leading zeros of the top digit of `v`. -/
def topClz (v : Nat) : Nat := 64 * limbCount 64 v - bitCount v

namespace Num

/-- One more than the largest value `count` digits hold. -/
def cap (x : Num) : Nat := 2 ^ (64 * x.count)

def bnInit (bits : Nat) : BnM Num Unit := fun x =>
  if 2048 < bits ∨ bits = 0 then .error .einval x else .ok () ⟨(bits + 63) / 64, 0⟩

def bnBitSet (bit : Nat) (v : Bool) : BnM Num Unit := fun x =>
  if x.count ≤ bit / 64 then .error .eoverflow x
  else .ok () { x with val :=
    if v then x.val ||| 2 ^ bit else if x.val.testBit bit then x.val ^^^ 2 ^ bit else x.val }

/-- Only the digits the buffer covers are replaced: the digits of a longer old value above them
stay. -/
def bnImportLeBin (buf : List (BitVec 8)) : BnM Num Unit := fun x =>
  if x.count = 0 ∨ buf.length = 0 then .error .einval x
  else if x.count * 8 < buf.length then .error .eoverflow x
  else
    let top := 2 ^ (64 * ((buf.length + 7) / 8))
    .ok () { x with val := Limbs.val buf + top * (x.val / top) }

def bnImportBeBin (buf : List (BitVec 8)) : BnM Num Unit := bnImportLeBin buf.reverse

def importHexBytes (bufSize : Nat) (bytes : List (BitVec 8)) : BnM Num Unit := fun x =>
  if x.count = 0 ∨ bufSize = 0 then .error .einval x
  else if x.count * 8 < bufSize / 2 then .error .eoverflow x
  else .ok () { x with val := Limbs.val bytes }

def bnImportLeHex (buf : List (BitVec 8)) : BnM Num Unit :=
  importHexBytes buf.length (hexBytes (fun first second => (first <<< 4) ||| second) none buf)

def bnImportBeHex (buf : List (BitVec 8)) : BnM Num Unit :=
  importHexBytes buf.length
    (hexBytes (fun first second => first ||| (second <<< 4)) none buf.reverse)

def bnAssign (src : Arg Num) : BnM Num Unit := fun x =>
  match src with
  | .self => .ok () x
  | .val y => if x.count < limbCount 64 y.val then .error .eoverflow x
      else .ok () { x with val := y.val }

def bnAssignInit (src : Arg Num) : BnM Num Unit := fun x => .ok () (src.get x)

def bnAssignZero : BnM Num Unit := fun x => .ok () { x with val := 0 }

def bnAssignDigit (digit : Digit) : BnM Num Unit := fun x =>
  if x.count = 0 then .error .eoverflow x else .ok () { x with val := digit.toNat }

def bnLShift (bits : Nat) : BnM Num Unit := fun x =>
  if x.val = 0 then .ok () x
  else if 64 * x.count + 8 ≤ bits then .error .undef x
  else .ok () { x with val := x.val * 2 ^ bits % x.cap }

def bnRShift (bits : Nat) : BnM Num Unit := fun x =>
  if x.val = 0 then .ok () x
  else if 64 * limbCount 64 x.val < bits then .error .undef x
  else .ok () { x with val := x.val / 2 ^ bits }

/-- `bn_and` clears one digit above the shorter operand; what `bn` has above that digit stays. -/
def bnAnd (n : Arg Num) : BnM Num Unit := fun x =>
  let y := n.get x
  let top := 2 ^ (64 * (min (limbCount 64 x.val) (limbCount 64 y.val) + 1))
  .ok () { x with val := (x.val &&& y.val) + top * (x.val / top) }

def bnOrXor (op : Nat → Nat → Nat) (n : Arg Num) : BnM Num Unit := fun x =>
  let y := n.get x
  if x.count < limbCount 64 y.val then .error .eoverflow x
  else .ok () { x with val := op x.val y.val }

def bnOr (n : Arg Num) : BnM Num Unit := bnOrXor (· ||| ·) n

def bnXor (n : Arg Num) : BnM Num Unit := bnOrXor (· ^^^ ·) n

def bnAddDigit (n : Digit) : BnM Num (Option Digit) := fun x =>
  if n = 0 then .ok none x
  else if x.count = 0 then .ok (some 0) x
  else .ok (some (BitVec.ofNat 64 ((x.val + n.toNat) / x.cap)))
    { x with val := (x.val + n.toNat) % x.cap }

def bnAdd (n : Arg Num) : BnM Num Digit := fun x =>
  let y := n.get x
  if x.count < limbCount 64 y.val then .error .eoverflow x
  else .ok (BitVec.ofNat 64 ((x.val + y.val) / x.cap)) { x with val := (x.val + y.val) % x.cap }

def bnSubDigit (n : Digit) : BnM Num (Option Digit) := fun x =>
  if n = 0 then .ok none x
  else if x.count = 0 then .ok (some 0) x
  else .ok (some (if x.val < n.toNat then 1 else 0))
    { x with val := (x.val + x.cap - n.toNat) % x.cap }

def bnSub (n : Arg Num) : BnM Num Digit := fun x =>
  match n with
  | .self => .ok 0 { x with val := 0 }
  | .val y =>
    if x.count < limbCount 64 y.val then .error .eoverflow x
    else .ok (if x.val < y.val then 1 else 0) { x with val := (x.val + x.cap - y.val) % x.cap }

def bnMult (_ : Junk) (n : Arg Num) : BnM Num Unit := fun x =>
  let y := n.get x
  if x.val = 0 ∨ y.val = 0 then .ok () { x with val := 0 }
  else if x.count < limbCount 64 x.val + limbCount 64 y.val then .error .eoverflow x
  else .ok () { x with val := x.val * y.val }

/-- Factors 2 and 3 go through `bn_add`, which drops the carry; the others need a spare digit. -/
def bnMultDigit (_ : Junk) (n : Digit) : BnM Num Unit := fun x =>
  if x.val = 0 then .ok () x
  else if n = 0 then .ok () { x with val := 0 }
  else if n = 1 then .ok () x
  else if n = 2 ∨ n = 3 then .ok () { x with val := x.val * n.toNat % x.cap }
  else if x.count ≤ limbCount 64 x.val then .error .eoverflow x
  else .ok () { x with val := x.val * n.toNat }

def divEq (remainder : Rem Num) : BnM Num (Option Num) := fun x =>
  match remainder with
  | .null => .ok none { x with val := 1 }
  | .self => .ok none { x with val := 0 }
  | .other r => .ok (some { r with val := 0 }) { x with val := 1 }

def bnDiv (_ : Junk) (d : Arg Num) (remainder : Rem Num) : BnM Num (Option Num) := fun x =>
  let y := d.get x
  if y.val = 0 then .error .einval x
  else if x.val = y.val then divEq remainder x
  else if x.val < y.val then
    match remainder with
    | .null => .ok none { x with val := 0 }
    | .self => .ok none x
    | .other r =>
      if r.count < limbCount 64 x.val then .error .eoverflow { x with val := 0 }
      else .ok (some { r with val := x.val }) { x with val := 0 }
  else if x.count = limbCount 64 x.val ∧ topClz x.val < topClz y.val then .error .eoverflow x
  else
    match remainder with
    | .null => .ok none { x with val := x.val / y.val }
    | .self => .ok none { x with val := x.val % y.val }
    | .other r =>
      if r.count < limbCount 64 (x.val % y.val) then
        .error .eoverflow { x with val := x.val / y.val }
      else .ok (some { r with val := x.val % y.val }) { x with val := x.val / y.val }

/-- A local copy of zero keeps the low digit its array held before. -/
def bnCalcJsf (J : Junk) (x y : Num) (jsfArrSize : Nat) : Except Err Jsf :=
  calcJsf LowNat.jsfSource (bitCount x.val) (bitCount y.val)
    ⟨x.val, (J 0).array.toList.getD 0 0⟩ ⟨y.val, (J 1).array.toList.getD 0 0⟩ jsfArrSize

end Num

/-- The digit level interface of `bn_t`. -/
class BnOps (B : Type) where
  /-- field `count` -/
  count : B → Nat
  /-- `num[0 .. digits)` -/
  sig : B → List Digit
  /-- a local before it is initialised -/
  uninit : Junk → B
  /-- `num[0]`, which is stale when there are no digits -/
  low : B → Digit
  bnInit : Nat → BnM B Unit
  bnBitSet : Nat → Bool → BnM B Unit
  bnImportLeBin : List (BitVec 8) → BnM B Unit
  bnImportBeBin : List (BitVec 8) → BnM B Unit
  bnImportLeHex : List (BitVec 8) → BnM B Unit
  bnImportBeHex : List (BitVec 8) → BnM B Unit
  bnAssign : Arg B → BnM B Unit
  bnAssignInit : Arg B → BnM B Unit
  bnAssignZero : BnM B Unit
  /-- with a nonzero digit, as everywhere in the sources -/
  bnAssignDigit : (digit : Digit) → digit ≠ 0 → BnM B Unit
  bnLShift : Nat → BnM B Unit
  bnRShift : Nat → BnM B Unit
  bnAnd : Arg B → BnM B Unit
  bnOr : Arg B → BnM B Unit
  bnXor : Arg B → BnM B Unit
  bnAddDigit : Digit → BnM B (Option Digit)
  bnAdd : Arg B → BnM B Digit
  bnSubDigit : Digit → BnM B (Option Digit)
  bnSub : Arg B → BnM B Digit
  bnMult : Junk → Arg B → BnM B Unit
  bnMultDigit : Junk → Digit → BnM B Unit
  bnDiv : Junk → Arg B → Rem B → BnM B (Option B)
  bnCalcJsf : Junk → B → B → Nat → Except Err Jsf

instance : BnOps Bn where
  count := Bn.count
  sig := Bn.sig
  uninit := Bn.uninit
  low b := b.dig 0
  bnInit := Bn.bnInit
  bnBitSet := Bn.bnBitSet
  bnImportLeBin := Bn.bnImportLeBin
  bnImportBeBin := Bn.bnImportBeBin
  bnImportLeHex := Bn.bnImportLeHex
  bnImportBeHex := Bn.bnImportBeHex
  bnAssign := Bn.bnAssign
  bnAssignInit := Bn.bnAssignInit
  bnAssignZero := Bn.bnAssignZero
  bnAssignDigit digit _ := Bn.bnAssignDigit digit
  bnLShift := Bn.bnLShift
  bnRShift := Bn.bnRShift
  bnAnd := Bn.bnAnd
  bnOr := Bn.bnOr
  bnXor := Bn.bnXor
  bnAddDigit := Bn.bnAddDigit
  bnAdd := Bn.bnAdd
  bnSubDigit := Bn.bnSubDigit
  bnSub := Bn.bnSub
  bnMult := Bn.bnMult
  bnMultDigit := Bn.bnMultDigit
  bnDiv := Bn.bnDiv
  bnCalcJsf := Bn.bnCalcJsf

instance : BnOps Num where
  count := Num.count
  sig x := limbs 64 (limbCount 64 x.val) x.val
  uninit _ := ⟨0, 0⟩
  low x := BitVec.ofNat 64 x.val
  bnInit := Num.bnInit
  bnBitSet := Num.bnBitSet
  bnImportLeBin := Num.bnImportLeBin
  bnImportBeBin := Num.bnImportBeBin
  bnImportLeHex := Num.bnImportLeHex
  bnImportBeHex := Num.bnImportBeHex
  bnAssign := Num.bnAssign
  bnAssignInit := Num.bnAssignInit
  bnAssignZero := Num.bnAssignZero
  bnAssignDigit digit _ := Num.bnAssignDigit digit
  bnLShift := Num.bnLShift
  bnRShift := Num.bnRShift
  bnAnd := Num.bnAnd
  bnOr := Num.bnOr
  bnXor := Num.bnXor
  bnAddDigit := Num.bnAddDigit
  bnAdd := Num.bnAdd
  bnSubDigit := Num.bnSubDigit
  bnSub := Num.bnSub
  bnMult := Num.bnMult
  bnMultDigit := Num.bnMultDigit
  bnDiv := Num.bnDiv
  bnCalcJsf := Num.bnCalcJsf

end BigNum

/-!
# Reading numbers

The functions of `math/big_num.h` that look at a number without changing it.  They see the digits
in use; only `bn_is_bit_set` reads `num[0]` also when no digit is in use.
-/

namespace BigNum

open Limbs StateErr BnOps

variable {B : Type} [BnOps B]

def bnIsZero (b : B) : Bool := (sig b).isEmpty

def bnIsOne (b : B) : Bool := sig b == [1]

def bnIsEven (b : B) : Bool :=
  match sig b with
  | [] => false
  | d :: _ => d &&& 1 == 0

def bnIsOdd (b : B) : Bool :=
  match sig b with
  | [] => false
  | d :: _ => d &&& 1 != 0

/-- `num[0]` of a number that has digits. -/
def lowDigit (b : B) : Digit := (sig b).headD 0

def digits (b : B) : Nat := (sig b).length

def bnCmp (a b : B) : Ordering :=
  if digits a ≠ digits b then compare (digits a) (digits b) else bnDigitsCmp (sig a) (sig b)

def bnCalcBits (b : B) : Nat :=
  if digits b = 0 then 0 else 64 * digits b - bnDigitClz ((sig b).getD (digits b - 1) 0)

/-- The loop of `bn_ctz`. -/
def ctzLoop : List Digit → Nat
  | [] => 0
  | d :: ds => if d = 0 then 64 + ctzLoop ds else bnDigitCtz d

def bnCtz (b : B) : Nat := ctzLoop (sig b)

/-- `bn_is_bit_set`: the test of the low digit comes before the one for the digits in use. -/
def bnIsBitSet (b : B) (bit : Nat) : Bool :=
  if bit < 64 then low b &&& ((1 : Digit) <<< bit) != 0
  else if digits b * 64 ≤ bit then false
  else (sig b).getD (bit / 64) 0 &&& ((1 : Digit) <<< (bit % 64)) != 0

/-- The loop of `bn_combo_column_get`: `i` windows are left and the next bit is at `off`, an
unsigned number that wraps below zero. -/
def comboLoop (b : B) (wndCount : Nat) : Nat → Nat → Digit → Digit
  | 0, _, res => res
  | i + 1, off, res =>
    let bit := off < digits b * 64 ∧
      (sig b).getD (off / 64) 0 &&& ((1 : Digit) <<< (off % 64)) ≠ 0
    comboLoop b wndCount i ((off + 2 ^ 64 - wndCount) % 2 ^ 64)
      ((res <<< 1) ||| (if bit then 1 else 0))

def bnComboColumnGet (b : B) (bitOff wndBits wndCount : Nat) : Digit :=
  comboLoop b wndCount wndBits bitOff 0

/-- One digit of the width-`wndBits` recoding of an odd number with low digit `d`: the low bits of
`d`, cut to `int8_t`, made negative when the sign bit of the window is set. -/
def nafItem (wndBits : Nat) (d : Digit) : Int :=
  let mask : Digit := ((1 : Digit) <<< wndBits) - 1
  let signBit : BitVec 8 := BitVec.ofNat 8 (2 ^ (wndBits - 1))
  let itm : BitVec 8 := (d &&& mask).setWidth 8
  (if signBit &&& itm ≠ 0 then itm - signBit * 2 else itm).toInt

section Naf

variable {σ : Type}

/-- The loop of `bn_calc_naf`; `room` is how many items of `naf_arr` are left. -/
def nafLoop (wndBits : Nat) : Nat → B → EStateM Err σ (List Int)
  | room, tm =>
    if bnIsZero tm then pure []
    else
      match room with
      | 0 => throw .undef
      | room + 1 =>
        if lowDigit tm &&& 1 ≠ 0 then do
          let itm := nafItem wndBits (lowDigit tm)
          let tm ← exec tm (if itm < 0 then bnAddDigit (BitVec.ofInt 64 (-itm))
            else bnSubDigit (BitVec.ofInt 64 itm))
          let tm ← exec tm (bnRShift 1)
          let items ← nafLoop wndBits room tm
          pure (itm :: items)
        else do
          let tm ← exec tm (bnRShift 1)
          let items ← nafLoop wndBits room tm
          pure (0 :: items)

/-- `bn_calc_naf`: the items, without the zeros that fill the rest of `naf_arr`.  A window of more
than 31 bits is shifted out of the type of `sign_bit`. -/
def bnCalcNaf (J : Junk) (bn : B) (wndBits nafArrSize : Nat) : EStateM Err σ (List Int) :=
  if wndBits < 2 then throw .einval
  else if nafArrSize < bnCalcBits bn + 1 then throw .eoverflow
  else if 31 < wndBits then throw .undef
  else do
    let tm ← exec (uninit (J 0)) (bnAssignInit (.val bn))
    nafLoop wndBits nafArrSize tm

end Naf

end BigNum
