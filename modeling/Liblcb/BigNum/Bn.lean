import Liblcb.Lib.StateErr
import Liblcb.BigNum.Digits

/-!
# The number record `bn_t`

`bn_t` and the `bn_*` functions of `math/big_num.h` that read or write its digits.  A function that
writes `*bn` is an action on `bn`; its other number arguments are pointers that may be equal to
`bn`.  Only the first `digits` entries of `num` carry the value, the others keep whatever was there.
-/

namespace BigNum

open Limbs StateErr

/-- Content of a `num` array. -/
structure NumArray where
  toList : List Digit
  length_toList : toList.length = 32
  deriving DecidableEq

/-- What the local variables of a call hold before they are written: one array for each local and
each call below it. -/
structure Junk where
  content : List Nat → NumArray

/-- The stale content seen by the `k`-th local or call. -/
def Junk.sub (J : Junk) (k : Nat) : Junk := ⟨fun path => J.content (k :: path)⟩

instance : CoeFun Junk (fun _ => Nat → Junk) := ⟨Junk.sub⟩

def Junk.array (J : Junk) : NumArray := J.content []

/-- A number argument of an action on `bn`: the pointer `bn` itself or another number. -/
inductive Arg (B : Type) where
  | self
  | val (x : B)

/-- The number an argument points to while `*bn` is `s`. -/
def Arg.get {B : Type} (a : Arg B) (s : B) : B :=
  match a with
  | .self => s
  | .val x => x

instance {B : Type} : Coe B (Arg B) := ⟨.val⟩

/-- The `remainder` argument of `bn_div`: `NULL`, `bn` itself, or another number. -/
inductive Rem (B : Type) where
  | null
  | self
  | other (r : B)

/-- `bn_t`. -/
structure Bn where
  count : Nat
  digits : Nat
  num : NumArray
  deriving DecidableEq

/-- An action on `*bn` that returns an error code. -/
abbrev BnM (B : Type) (α : Type) := EStateM Err B α

namespace Bn

/-- A local before `bn_init` or `bn_assign_init`, which set `count` and `digits`. -/
def uninit (J : Junk) : Bn := ⟨0, 0, J.array⟩

/-- Entry `i` of `num`. -/
def dig (b : Bn) (i : Nat) : Digit := b.num.toList.getD i 0

/-- The digits that carry the value. -/
def sig (b : Bn) : List Digit := b.num.toList.take b.digits

/-- Writes `l` over the first entries of `num`. -/
def write (b : Bn) (l : List Digit) : Bn :=
  { b with num := ⟨l.take 32 ++ b.num.toList.drop l.length, by
      have := b.num.length_toList
      simp only [List.length_append, List.length_take, List.length_drop]
      omega⟩ }

/-- `num[i] = d`. -/
def setDig (b : Bn) (i : Nat) (d : Digit) : Bn :=
  { b with num := ⟨b.num.toList.set i d, by simp [b.num.length_toList]⟩ }

/-- `bn_init_digits__int`. -/
def bnInitDigits (b : Bn) (digitOff : Nat) : Bn :=
  if digitOff ≤ b.digits then b
  else b.write (b.num.toList.take b.digits ++
    List.replicate (min digitOff b.count - b.digits) 0)

/-- `bn_update_digits__int`. -/
def bnUpdateDigits (b : Bn) (digits : Nat) : Bn :=
  if b.count ≤ digits then
    { b with digits := bnDigitsCalcDigits (b.num.toList.take b.count) }
  else if digits < b.digits then
    { b with digits := bnDigitsCalcDigits (b.num.toList.take b.digits) }
  else if b.digits < digits ∧ b.dig (digits - 1) ≠ 0 then { b with digits := digits }
  else { b with digits := bnDigitsCalcDigits (b.num.toList.take digits) }

def bnInit (bits : Nat) : BnM Bn Unit := fun b =>
  if 2048 < bits ∨ bits = 0 then .error .einval b
  else if 32 < (bits + 63) / 64 then .error .einval { b with count := (bits + 63) / 64 }
  else .ok () { b with count := (bits + 63) / 64, digits := 0 }

def bnBitSet (bit : Nat) (val : Bool) : BnM Bn Unit := fun b =>
  let idx := bit / 64
  if b.count ≤ idx then .error .eoverflow b
  else
    let b := b.bnInitDigits (idx + 1)
    let msk := (1 : Digit) <<< (bit % 64)
    let b := b.setDig idx (if val then b.dig idx ||| msk else b.dig idx &&& ~~~msk)
    .ok () (b.bnUpdateDigits (idx + 1))

/-- `bn_import_le_bin`; `bn_digits_import_le_bin` clears the rest of the last digit it touches. -/
def bnImportLeBin (buf : List (BitVec 8)) : BnM Bn Unit := fun b =>
  if b.count = 0 ∨ buf.length = 0 then .error .einval b
  else if b.count * 8 < buf.length then .error .eoverflow b
  else
    let digits := (buf.length + 7) / 8
    let b := b.write (ofBytes (buf ++ List.replicate (8 * digits - buf.length) 0))
    .ok () (b.bnUpdateDigits digits)

def bnImportBeBin (buf : List (BitVec 8)) : BnM Bn Unit := bnImportLeBin buf.reverse

end Bn

/-- Value of one hex character, `none` for a character the import functions skip. -/
def hexDigit (c : BitVec 8) : Option (BitVec 8) :=
  if 0x30 ≤ c ∧ c ≤ 0x39 then some (c - 0x30)
  else if 0x61 ≤ c ∧ c ≤ 0x66 then some (c - (0x61 - 10))
  else if 0x41 ≤ c ∧ c ≤ 0x46 then some (c - (0x41 - 10))
  else none

/-- Bytes of a hex string, two digits each; an odd last digit is dropped.  `first` is the digit
read before, and `join` puts the two together. -/
def hexBytes (join : BitVec 8 → BitVec 8 → BitVec 8) :
    Option (BitVec 8) → List (BitVec 8) → List (BitVec 8)
  | _, [] => []
  | first, c :: cs =>
    match hexDigit c, first with
    | none, _ => hexBytes join first cs
    | some d, none => hexBytes join (some d) cs
    | some d, some h => join h d :: hexBytes join none cs

namespace Bn

def importHexBytes (bufSize : Nat) (bytes : List (BitVec 8)) : BnM Bn Unit := fun b =>
  let b := b.bnInitDigits b.count
  if b.count = 0 ∨ bufSize = 0 then .error .einval b
  else if b.count * 8 < bufSize / 2 then .error .eoverflow b
  else if b.count * 8 < bytes.length then
    .error .eoverflow (b.write (ofBytes (bytes.take (b.count * 8))))
  else
    let b := b.write (ofBytes (bytes ++ List.replicate (b.count * 8 - bytes.length) 0))
    .ok () { b with digits := bnDigitsCalcDigits (b.num.toList.take b.count) }

def bnImportLeHex (buf : List (BitVec 8)) : BnM Bn Unit :=
  importHexBytes buf.length (hexBytes (fun first second => (first <<< 4) ||| second) none buf)

def bnImportBeHex (buf : List (BitVec 8)) : BnM Bn Unit :=
  importHexBytes buf.length
    (hexBytes (fun first second => first ||| (second <<< 4)) none buf.reverse)

def bnAssign (src : Arg Bn) : BnM Bn Unit := fun b =>
  match src with
  | .self => .ok () b
  | .val src =>
    if b.count < src.digits then .error .eoverflow b
    else .ok () { b.write src.sig with digits := src.digits }

def bnAssignInit (src : Arg Bn) : BnM Bn Unit := fun b =>
  match src with
  | .self => .ok () b
  | .val src => .ok () { b.write src.sig with count := src.count, digits := src.digits }

def bnAssignZero : BnM Bn Unit := fun b => .ok () { b with digits := 0 }

def bnAssignDigit (digit : Digit) : BnM Bn Unit := fun b =>
  if b.count = 0 then .error .eoverflow b
  else .ok () { b.setDig 0 digit with digits := 1 }

def bnLShift (bits : Nat) : BnM Bn Unit := fun b =>
  if b.digits = 0 then .ok () b
  else
    let digits := min b.count (b.digits + 1 + bits / 64)
    let b := b.bnInitDigits digits
    match bnDigitsLShift (b.num.toList.take digits) bits with
    | .error e => .error e b
    | .ok l => .ok () ((b.write l).bnUpdateDigits digits)

def bnRShift (bits : Nat) : BnM Bn Unit := fun b =>
  if b.digits = 0 then .ok () b
  else
    match bnDigitsRShift b.sig bits with
    | .error e => .error e b
    | .ok l => .ok () ((b.write l).bnUpdateDigits b.digits)

def bnAnd (n : Arg Bn) : BnM Bn Unit := fun b =>
  let n := n.get b
  let digits := min b.digits n.digits
  let b := b.write (List.zipWith (· &&& ·) (b.num.toList.take digits) (n.num.toList.take digits))
  let b := if digits < b.count then b.setDig digits 0 else b
  .ok () (b.bnUpdateDigits digits)

/-- `bn_or` and `bn_xor`, which differ in the digit operation only. -/
def bnOrXor (op : Digit → Digit → Digit) (n : Arg Bn) : BnM Bn Unit := fun b =>
  let n := n.get b
  if b.count < n.digits then .error .eoverflow b
  else
    let digits := max b.digits n.digits
    let b := b.bnInitDigits digits
    let b := b.write (List.zipWith op (b.num.toList.take n.digits) n.sig)
    .ok () (b.bnUpdateDigits digits)

def bnOr (n : Arg Bn) : BnM Bn Unit := bnOrXor (· ||| ·) n

def bnXor (n : Arg Bn) : BnM Bn Unit := bnOrXor (· ^^^ ·) n

/-- `bn_add_digit`; the result is `*carry`, `none` when it is not written. -/
def bnAddDigit (n : Digit) : BnM Bn (Option Digit) := fun b =>
  if n = 0 then .ok none b
  else
    let digits := b.digits + 1
    let b := b.bnInitDigits digits
    let r := bnDigitsAddDigit (b.num.toList.take b.count) n
    .ok (some r.2) ((b.write r.1).bnUpdateDigits digits)

/-- `bn_add`; the result is `*carry`. -/
def bnAdd (n : Arg Bn) : BnM Bn Digit := fun b =>
  let n := n.get b
  let digits := max b.digits n.digits + 1
  let b := b.bnInitDigits digits
  match bnDigitsAdd (b.num.toList.take b.count) n.sig with
  | .error e => .error e b
  | .ok r => .ok r.2 ((b.write r.1).bnUpdateDigits digits)

/-- `bn_sub_digit`; the result is `*borrow`, `none` when it is not written. -/
def bnSubDigit (n : Digit) : BnM Bn (Option Digit) := fun b =>
  if n = 0 then .ok none b
  else
    let digits := if b.digits = 0 ∨ (b.digits = 1 ∧ b.dig 0 < n) then b.count else b.digits
    let b := b.bnInitDigits digits
    let r := bnDigitsSubDigit (b.num.toList.take b.count) n
    .ok (some r.2) ((b.write r.1).bnUpdateDigits digits)

/-- `bn_sub` after its `bn == n` test; the result is `*borrow`.  With no digits on both sides the
source compares `num[-1]`, which is the field `digits` before the array, with itself. -/
def bnSubInt (n : Bn) : BnM Bn Digit := fun b =>
  let digits :=
    if b.digits < n.digits ∨
      (b.digits = n.digits ∧ (b.digits = 0 ∨ b.dig (b.digits - 1) ≤ n.dig (b.digits - 1)))
    then b.count else b.digits
  let b := b.bnInitDigits digits
  match bnDigitsSub (b.num.toList.take b.count) n.sig with
  | .error e => .error e b
  | .ok r => .ok r.2 ((b.write r.1).bnUpdateDigits digits)

def bnSub (n : Arg Bn) : BnM Bn Digit := fun b =>
  match n with
  | .self =>
    let b := { b with digits := 0 }
    bnSubInt b b
  | .val n => bnSubInt n b

def bnCmp (a b : Bn) : Ordering :=
  if a.digits ≠ b.digits then compare a.digits b.digits else bnDigitsCmp a.sig b.sig

/-- The loop of `bn_mult` from digit `j` of the multiplier on; `acc` is `&bn->num[j]`. -/
def multLoop (multiplicand : List Digit) : List Digit → List Digit → List Digit
  | [], acc => acc
  | m :: ms, acc =>
    match (if m = 0 then acc else bnDigitsAddDigitMult acc multiplicand m) with
    | [] => []
    | a :: acc => a :: multLoop multiplicand ms acc

/-- Multiplicand and multiplier of `bn_mult`; `tmp` is the copy of `bn`. -/
def multFactors (tmp : Bn) (n : Arg Bn) : Bn × Bn :=
  match n with
  | .self => (tmp, tmp)
  | .val n => if bnCmp tmp n = Ordering.gt then (tmp, n) else (n, tmp)

def bnMult (J : Junk) (n : Arg Bn) : BnM Bn Unit := fun b =>
  if b.digits = 0 ∨ (n.get b).digits = 0 then .ok () { b with digits := 0 }
  else
    let digits := b.digits + (n.get b).digits
    if b.count < digits then .error .eoverflow b
    else
      let f := multFactors (stateOf (bnAssignInit b (uninit J))) n
      let b := Bn.bnInitDigits { b with digits := 0 } digits
      let b := b.write (multLoop f.1.sig f.2.sig (b.num.toList.take digits))
      .ok () (b.bnUpdateDigits digits)

def bnMultDigit (J : Junk) (n : Digit) : BnM Bn Unit := fun b =>
  if b.digits = 0 then .ok () b
  else if n = 0 then bnAssignZero b
  else if n = 1 then .ok () b
  else if n = 2 then (bnAdd .self >>= fun _ => pure ()) b
  else if n = 3 then
    (do
      let tmp ← exec (uninit J) (bnAssignInit b)
      let tmp ← exec tmp (bnAdd .self)
      let _ ← bnAdd tmp
      pure ()) b
  else if b.count ≤ b.digits then .error .eoverflow b
  else
    let digits := b.digits + 1
    let b := b.bnInitDigits digits
    match bnDigitsMultDigit (b.num.toList.take digits) n with
    | .error e => .error e b
    | .ok l => .ok () ((b.write l).bnUpdateDigits digits)

/-- `num[j .. stop)` replaced by `f` of it. -/
def onSlice (f : List Digit → List Digit) (num : List Digit) (j stop : Nat) : List Digit :=
  num.take j ++ f ((num.drop j).take (stop - j)) ++ num.drop (max j stop)

/-- The correction loop of `bn_div`. -/
def divCorrect (nnCount nnDigits : Nat) (dd : List Digit) (j : Nat) :
    Nat → Digit → List Digit → Except Err (Digit × List Digit)
  | 0, _, _ => .error .noReturn
  | fuel + 1, ai, num =>
    if (j + dd.length < nnCount ∧ num.getD (j + dd.length) 0 ≠ 0) ∨
        bnDigitsCmp ((num.drop j).take dd.length) dd ≠ .lt then
      divCorrect nnCount nnDigits dd j fuel (ai + 1)
        (onSlice (fun a => (bnDigitsSubInt a dd).1) num j nnDigits)
    else .ok (ai, num)

/-- The underestimated quotient digit of one round of `bn_div`. -/
def divEstimate (nnCount ddDigits : Nat) (t : Digit) (j : Nat) (num : List Digit) :
    Except Err Digit :=
  if nnCount = j + ddDigits then
    .ok (if t = maxDigit then 0 else num.getD (j + ddDigits - 1) 0 / (t + 1))
  else if t = maxDigit then .ok (num.getD (j + ddDigits) 0)
  else bnDigitDivShort (num.getD (j + ddDigits - 1) 0) (num.getD (j + ddDigits) 0) (t + 1)

/-- One round of `bn_div`: the quotient digit at `j` and what is left of `nn`. -/
def divStep (nnCount nnDigits : Nat) (dd : List Digit) (t : Digit) (j : Nat)
    (num : List Digit) : Except Err (Digit × List Digit) := do
  let ai ← divEstimate nnCount dd.length t j num
  let num := if ai ≠ 0 then onSlice (fun a => (bnDigitsSubDigitMult a dd ai).1) num j nnDigits
    else num
  -- the window is below `dd * 2^64`, so 2^64 rounds are more than there can be
  divCorrect nnCount nnDigits dd j (2 ^ 64) ai num

/-- The rounds of `bn_div` from digit `j - 1` down to 0; `q` are the quotient digits found. -/
def divLoop (nnCount nnDigits : Nat) (dd : List Digit) (t : Digit) :
    Nat → List Digit → List Digit → Except Err (List Digit × List Digit)
  | 0, q, num => .ok (q, num)
  | j + 1, q, num => do
    let r ← divStep nnCount nnDigits dd t j num
    divLoop nnCount nnDigits dd t j (r.1 :: q) r.2

/-- `bn_div` for `bn > d`. -/
def divMain (J : Junk) (d : Bn) (remainder : Rem Bn) : BnM Bn (Option Bn) := fun b =>
  let shift := bnDigitClz (d.dig (d.digits - 1))
  if b.count = b.digits ∧ bnDigitClz (b.dig (b.digits - 1)) < shift then .error .eoverflow b
  else
    (do
      let dd ← exec (uninit (J 0)) (bnAssignInit d)
      let dd ← exec (dd.bnInitDigits dd.count) (bnLShift shift)
      let t := dd.dig (dd.digits - 1)
      let nn ← exec (uninit (J 1)) (bnAssignInit b)
      let nn ← exec (nn.bnInitDigits nn.count) (bnLShift shift)
      bnAssignZero
      match divLoop nn.count nn.digits dd.sig t (1 + nn.digits - dd.digits) [] nn.num.toList with
      | .error e => throw e
      | .ok r =>
        modify fun (b : Bn) => (b.write r.1).bnUpdateDigits (1 + nn.digits - dd.digits)
        match remainder with
        | .null => pure none
        | .self => do
          let nn ← exec ((nn.write r.2).bnUpdateDigits nn.digits) (bnRShift shift)
          bnAssign nn
          pure none
        | .other rm => do
          let nn ← exec ((nn.write r.2).bnUpdateDigits nn.digits) (bnRShift shift)
          let rm ← exec rm (bnAssign nn)
          pure (some rm)) b

/-- `bn_div` at the label `n_eq_d`. -/
def divEq (remainder : Rem Bn) : BnM Bn (Option Bn) := fun b =>
  match remainder with
  | .null => .ok none (stateOf (bnAssignDigit 1 b))
  | .self => .ok none { b with digits := 0 }
  | .other r => .ok (some { r with digits := 0 }) (stateOf (bnAssignDigit 1 b))

/-- `bn_div` for `bn < d`. -/
def divSmall (remainder : Rem Bn) : BnM Bn (Option Bn) := fun b =>
  match remainder with
  | .null => .ok none { b with digits := 0 }
  | .self => .ok none b
  | .other r =>
    -- the quotient is cleared even when the remainder does not fit
    match bnAssign b r with
    | .ok _ r => .ok (some r) { b with digits := 0 }
    | .error e _ => .error e { b with digits := 0 }

/-- `bn_div`: `*bn` becomes the quotient, or the remainder if `remainder` is `bn`.  The result is
the new `*remainder` when it is another number. -/
def bnDiv (J : Junk) (d : Arg Bn) (remainder : Rem Bn) : BnM Bn (Option Bn) := fun b =>
  if (d.get b).digits = 0 then .error .einval b
  else
    match d with
    | .self => divEq remainder b
    | .val d =>
      match bnCmp b d with
      | .eq => divEq remainder b
      | .lt => divSmall remainder b
      | .gt => divMain J d remainder b

end Bn

end BigNum
