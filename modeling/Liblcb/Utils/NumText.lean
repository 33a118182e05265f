import Liblcb.Lib.ByteMem
import Liblcb.Utils.Num2Str

/-!
# Decimal text in memory

`UNUM2STR` and `SNUM2STR` of `utils/num2str.h` for numbers of 64 bits.  The digits are stored from
the last one to the first, down from where the counted length says the text ends.  `%` and `/` are
those of the number's type, and `storeDigits` takes them as parameters; `0 - num` and
`'0' + num % 10` wrap.
-/

namespace NumText

open ByteMem Num2Str
open Mem (chr ustr2usize ustr2s64)

/-- What a call returns, what it stores in `*size_ret`, and the memory. -/
structure Out where
  error : Option Errno
  sizeRet : Option Nat
  mem : Memory

/-- The loop that stores the digits in front of `buf`. -/
def storeDigits (rem quot : BitVec 64 → BitVec 64) : Nat → BitVec 64 → Nat → Memory → Memory
  | 0, _, _, m => m
  | fuel + 1, num, buf, m =>
    let m := write m (buf - 1) [(48#64 + rem num).setWidth 8]
    if quot num = 0 then m else storeDigits rem quot fuel (quot num) (buf - 1) m

/-- What is common to both macros, behind the check of the arguments and the sign. -/
def num2str (rem quot : BitVec 64 → BitVec 64) (neg : Bool) (m : Memory) (buf size : Nat)
    (num : BitVec 64) : Out :=
  let len := numLen num.toNat + neg.toNat
  if size < len + 1 then ⟨some .enospc, some (len + 1), m⟩
  else
    let m := if neg then write m buf [chr '-'] else m
    let m := write m (buf + len) [0]
    ⟨none, some len, storeDigits rem quot pow10lst.length num (buf + len) m⟩

def unum2str (m : Memory) (buf size : Nat) (num : BitVec 64) : Out :=
  if buf = 0 ∨ size = 0 then ⟨some .einval, none, m⟩
  else num2str (· % 10#64) (· / 10#64) false m buf size num

def snum2str (m : Memory) (buf size : Nat) (num : BitVec 64) : Out :=
  if buf = 0 ∨ size = 0 then ⟨some .einval, none, m⟩
  else if num.slt 0 then num2str (·.srem 10#64) (·.sdiv 10#64) true m buf size (0 - num)
  else num2str (·.srem 10#64) (·.sdiv 10#64) false m buf size num

/-- The call fails exactly where the text and a zero do not fit.  Otherwise it stores these and
nothing else, returns the length of the text, and the text is read back as the number. -/
structure Exact (text : List Byte) (back : List Byte → BitVec 64) (m : Memory) (buf size : Nat)
    (num : BitVec 64) (out : Out) : Prop where
  fits : out.error = none ↔ text.length + 1 ≤ size
  stored : out.error = none → out.sizeRet = some text.length ∧ out.mem = write m buf (text ++ [0])
  frame : ∀ a, a < buf ∨ buf + size ≤ a → out.mem a = m a
  value : out.error = none → back (read out.mem buf text.length) = num

/-! ## Storing the digits -/

variable {rem quot : BitVec 64 → BitVec 64} {bound : Nat}

/-- `rem` and `quot` are those of the naturals below `bound`. -/
def DivTen (rem quot : BitVec 64 → BitVec 64) (bound : Nat) : Prop :=
  ∀ num : BitVec 64, num.toNat < bound →
    (rem num).toNat = num.toNat % 10 ∧ (quot num).toNat = num.toNat / 10

theorem divTen_unsigned : DivTen (· % 10#64) (· / 10#64) (2 ^ 64) := by
  intro num _
  exact ⟨BitVec.toNat_umod, BitVec.toNat_udiv⟩

theorem divTen_signed : DivTen (·.srem 10#64) (·.sdiv 10#64) (2 ^ 63) := by
  intro num hnum
  have hmsb : num.msb = false := BitVec.msb_eq_false_iff_two_mul_lt.mpr (by omega)
  have hten : (10#64).msb = false := by decide
  dsimp only
  rw [BitVec.srem_eq, BitVec.sdiv_eq, hmsb, hten]
  exact ⟨BitVec.toNat_umod, BitVec.toNat_udiv⟩

theorem digit_eq {r : BitVec 64} {d : Nat} (hr : r.toNat = d) :
    (48#64 + r).setWidth 8 = BitVec.ofNat 8 (48 + d) := by
  apply BitVec.eq_of_toNat_eq
  rw [BitVec.toNat_setWidth, BitVec.toNat_add, hr, BitVec.toNat_ofNat, BitVec.toNat_ofNat]
  omega

theorem storeDigits_eq (hdiv : DivTen rem quot bound) : ∀ (fuel : Nat) (num : BitVec 64) (p : Nat)
    (m : Memory), num.toNat < bound → num.toNat < 10 ^ fuel → 0 < fuel →
    storeDigits rem quot fuel num (p + (BtEncode.decimal num.toNat).length) m =
      write m p (BtEncode.decimal num.toNat)
  | 0, _, _, _, _, _, hfuel => absurd hfuel (Nat.lt_irrefl 0)
  | fuel + 1, num, p, m, hbound, hnum, _ => by
    rcases hdiv num hbound with ⟨hrem, hquot⟩
    have hdigit := digit_eq hrem
    have hzero : quot num = 0 ↔ num.toNat < 10 := by
      rw [← BitVec.toNat_inj, hquot]
      exact Nat.div_eq_zero_iff_lt (by decide)
    rw [storeDigits, hdigit]
    by_cases hlast : num.toNat < 10
    · rw [if_pos (hzero.mpr hlast), BtEncode.decimal, if_pos hlast, Nat.mod_eq_of_lt hlast]
      rfl
    · have hdec : BtEncode.decimal num.toNat = BtEncode.decimal (num.toNat / 10) ++
          [BitVec.ofNat 8 (48 + num.toNat % 10)] := by
        conv_lhs => rw [BtEncode.decimal]
        exact if_neg hlast
      have hlt : num.toNat / 10 < 10 ^ fuel := by
        rw [Nat.div_lt_iff_lt_mul (by decide), ← Nat.pow_succ]
        exact hnum
      have hfuel : 0 < fuel := by
        by_contra hzero
        rw [Nat.eq_zero_of_not_pos hzero] at hlt
        omega
      have hrest := storeDigits_eq hdiv fuel (quot num) p
        (write m (p + (BtEncode.decimal (num.toNat / 10)).length)
          [BitVec.ofNat 8 (48 + num.toNat % 10)]) (by rw [hquot]; omega) (by rwa [hquot]) hfuel
      rw [hquot, write_prepend] at hrest
      rw [if_neg (fun h => hlast (hzero.mp h)), hdec, List.length_append, List.length_singleton,
        ← Nat.add_assoc, Nat.add_sub_cancel]
      exact hrest

theorem storeDigits_ge {a : Nat} : ∀ (fuel : Nat) (num : BitVec 64) (buf : Nat) (m : Memory),
    0 < a → buf ≤ a → storeDigits rem quot fuel num buf m a = m a
  | 0, _, _, _, _, _ => rfl
  | fuel + 1, num, buf, m, hpos, ha => by
    have hwrite : write m (buf - 1) [(48#64 + rem num).setWidth 8] a = m a :=
      write_of_ge (by rw [List.length_singleton]; omega)
    rw [storeDigits]
    split
    · exact hwrite
    · rw [storeDigits_ge fuel _ _ _ hpos (by omega), hwrite]

/-! ## One call -/

def sign (neg : Bool) : List Byte := if neg then [chr '-'] else []

theorem length_sign (neg : Bool) : (sign neg).length = neg.toNat := by
  cases neg with
  | true => rfl
  | false => rfl

theorem toNat_lt_pow20 (num : BitVec 64) : num.toNat < 10 ^ 20 := by
  have hnum := num.isLt
  have hpow : (2 : Nat) ^ 64 < 10 ^ 20 := by decide
  omega

section Call

variable {neg : Bool} {m : Memory} {buf size : Nat} {num : BitVec 64}

theorem num2str_error : (num2str rem quot neg m buf size num).error = none ↔
    numLen num.toNat + neg.toNat + 1 ≤ size := by
  unfold num2str
  dsimp only
  split
  · exact iff_of_false (fun h => by cases h) (by omega)
  · exact iff_of_true rfl (by omega)

theorem num2str_sizeRet (hok : (num2str rem quot neg m buf size num).error = none) :
    (num2str rem quot neg m buf size num).sizeRet = some (numLen num.toNat + neg.toNat) := by
  have hsize := num2str_error.mp hok
  unfold num2str
  dsimp only
  rw [if_neg (by omega)]

theorem num2str_mem_error (herr : (num2str rem quot neg m buf size num).error ≠ none) :
    (num2str rem quot neg m buf size num).mem = m := by
  have hsize := mt num2str_error.mpr herr
  unfold num2str
  dsimp only
  rw [if_pos (by omega)]

theorem num2str_mem_ok (hdiv : DivTen rem quot bound) (hbound : num.toNat < bound)
    (hlen : numLen num.toNat = (BtEncode.decimal num.toNat).length)
    (hok : (num2str rem quot neg m buf size num).error = none) :
    (num2str rem quot neg m buf size num).mem =
      write m buf (sign neg ++ BtEncode.decimal num.toNat ++ [0]) := by
  have hsize := num2str_error.mp hok
  have hdigits := fun m => storeDigits_eq hdiv pow10lst.length num (buf + neg.toNat) m hbound
    (toNat_lt_pow20 num) (by decide)
  have hsign : (if neg then write m buf [chr '-'] else m) = write m buf (sign neg) := by
    cases neg with
    | true => rfl
    | false => exact write_nil.symm
  unfold num2str
  dsimp only
  rw [if_neg (by omega), hsign, hlen, Nat.add_comm _ neg.toNat, ← Nat.add_assoc, hdigits,
    write_prepend, ← length_sign, write_append, List.append_assoc]

/-- The length of the text is the counted one, and one more for a power of ten. -/
theorem num2str_exact_iff {back : List Byte → BitVec 64} {value : BitVec 64} (neg : Bool)
    (hdiv : DivTen rem quot bound) (hbound : num.toNat < bound)
    (hback : back (sign neg ++ BtEncode.decimal num.toNat) = value) :
    Exact (sign neg ++ BtEncode.decimal num.toNat) back m buf size value
        (num2str rem quot neg m buf size num) ↔
      (IsPow10 num.toNat → size < (sign neg ++ BtEncode.decimal num.toNat).length) := by
  have htext : (sign neg ++ BtEncode.decimal num.toNat).length =
      neg.toNat + (BtEncode.decimal num.toNat).length := by
    rw [List.length_append, length_sign]
  rcases length_numText num.isLt with ⟨hshort, hexact⟩
  rw [numText_eq (toNat_lt_pow20 num)] at hshort hexact
  rw [htext]
  by_cases hok : (num2str rem quot neg m buf size num).error = none
  · have hsize := num2str_error.mp hok
    by_cases hpow : IsPow10 num.toNat
    · -- one byte short: the returned length is wrong, whatever has been stored
      refine iff_of_false (fun h => ?_) (fun h => ?_)
      · have hret := (h.stored hok).1
        rw [num2str_sizeRet hok, htext, Option.some.injEq, hshort hpow] at hret
        omega
      · have hfits := h hpow
        rw [hshort hpow] at hfits
        omega
    · refine iff_of_true ?_ (fun h => absurd h hpow)
      have hmem := num2str_mem_ok hdiv hbound (hexact hpow).symm hok
      have hlen := hexact hpow
      have hall : (sign neg ++ BtEncode.decimal num.toNat ++ [0]).length ≤ size := by
        rw [List.length_append, htext, List.length_singleton]
        omega
      refine ⟨iff_of_true hok (by omega), fun _ => ⟨?_, hmem⟩, ?_, fun _ => ?_⟩
      · rw [num2str_sizeRet hok, htext, hlen, Nat.add_comm]
      · intro a ha
        rw [hmem]
        rcases ha with ha | ha
        · exact write_of_lt ha
        · exact write_of_ge (by omega)
      · rw [hmem, ← write_append, read_write_of_disjoint (.inl (Nat.le_refl _)), read_write_self,
          hback]
  · have hsize := mt num2str_error.mpr hok
    refine iff_of_true ⟨iff_of_false hok ?_, fun h => absurd h hok, ?_, fun h => absurd h hok⟩
      fun hpow => ?_
    · by_cases hpow : IsPow10 num.toNat
      · have hlen := hshort hpow
        omega
      · have hlen := hexact hpow
        omega
    · intro a _
      rw [num2str_mem_error hok]
    · have hlen := hshort hpow
      omega

end Call

/-! ## Both kinds of numbers -/

section Numbers

variable {m : Memory} {buf size : Nat} {num : BitVec 64}

theorem exact_einval {text : List Byte} {back : List Byte → BitVec 64} :
    Exact text back m buf 0 num ⟨some .einval, none, m⟩ where
  fits := iff_of_false (fun h => by cases h) (by omega)
  stored := fun h => by cases h
  frame := fun _ _ => rfl
  value := fun h => by cases h

theorem unum2str_eq (hbuf : 0 < buf) (hsize : 0 < size) :
    unum2str m buf size num = num2str (· % 10#64) (· / 10#64) false m buf size num :=
  if_neg (by omega)

theorem snum2str_neg (hbuf : 0 < buf) (hsize : 0 < size) (hneg : num.slt 0) :
    snum2str m buf size num =
      num2str (·.srem 10#64) (·.sdiv 10#64) true m buf size (0 - num) := by
  rw [snum2str, if_neg (by omega), if_pos hneg]

theorem snum2str_nonneg (hbuf : 0 < buf) (hsize : 0 < size) (hneg : ¬ num.slt 0) :
    snum2str m buf size num = num2str (·.srem 10#64) (·.sdiv 10#64) false m buf size num := by
  rw [snum2str, if_neg (by omega), if_neg hneg]

theorem unum2str_exact_iff (hbuf : 0 < buf) :
    Exact (BtEncode.decimal num.toNat) ustr2usize m buf size num (unum2str m buf size num) ↔
      (IsPow10 num.toNat → size < (BtEncode.decimal num.toNat).length) := by
  by_cases hsize : size = 0
  · have hpos := List.length_pos_iff.mpr (BtEncode.decimal_ne_nil num.toNat)
    rw [hsize, unum2str, if_pos (.inr rfl)]
    exact iff_of_true exact_einval fun _ => hpos
  · have hback : ustr2usize (BtEncode.decimal num.toNat) = num := by
      rw [BtEncode.ustr2usize_decimal, BitVec.ofNat_toNat, BitVec.setWidth_eq]
    rw [unum2str_eq hbuf (by omega)]
    exact num2str_exact_iff false divTen_unsigned num.isLt hback

theorem decimalInt_eq (num : BitVec 64) :
    BtEncode.decimalInt num.toInt = sign (num.slt 0) ++ BtEncode.decimal num.toInt.natAbs := by
  have hslt : num.slt 0 = decide (num.toInt < 0) := by
    rw [BitVec.slt_eq_decide]
    rfl
  rw [BtEncode.decimalInt, hslt]
  by_cases hneg : num.toInt < 0
  · rw [if_pos hneg, decide_eq_true hneg]
    rfl
  · rw [if_neg hneg, decide_eq_false hneg]
    rfl

theorem natAbs_lt (hmin : num ≠ BitVec.intMin 64) : num.toInt.natAbs < 2 ^ 63 := by
  have hlt := BitVec.toInt_lt (x := num)
  have hle := BitVec.le_toInt (x := num)
  have hne : num.toInt ≠ (BitVec.intMin 64).toInt := fun h => hmin (BitVec.eq_of_toInt_eq h)
  have hval : (BitVec.intMin 64).toInt = -2 ^ 63 := by decide
  omega

theorem natAbs_neg (hneg : num.slt 0) : num.toInt.natAbs = (0 - num).toNat := by
  rw [BitVec.slt_eq_decide, decide_eq_true_eq] at hneg
  have hval := BitVec.toInt_eq_toNat_cond num
  have hlt := num.isLt
  rw [BitVec.toNat_sub]
  simp only [BitVec.toInt_zero, BitVec.toNat_zero, BitVec.ofNat_eq_ofNat] at hneg ⊢
  omega

theorem natAbs_nonneg (hneg : ¬ num.slt 0) : num.toInt.natAbs = num.toNat := by
  rw [BitVec.slt_eq_decide, decide_eq_true_eq] at hneg
  have hval := BitVec.toInt_eq_toNat_cond num
  have hlt := num.isLt
  simp only [BitVec.toInt_zero, BitVec.ofNat_eq_ofNat] at hneg
  omega

/-! ## The least number, whose sign cannot be changed -/

theorem numLen_min : numLen (BitVec.intMin 64).toNat = 19 := by decide

theorem decimalInt_min : ∃ pre : List Byte, pre.length = 19 ∧
    BtEncode.decimalInt (BitVec.intMin 64).toInt = pre ++ [chr '8'] := by
  have habs : (BitVec.intMin 64).toInt.natAbs = 9223372036854775808 := by decide
  have hneg : (BitVec.intMin 64).slt 0 = true := by decide
  refine ⟨chr '-' :: BtEncode.decimal 922337203685477580, ?_, ?_⟩
  · rw [List.length_cons, length_decimal 17 (by decide) (by decide)]
  · rw [decimalInt_eq, hneg, habs, BtEncode.decimal, if_neg (by decide)]
    rfl

theorem num2str_min_mem (hbuf : 0 < buf) (hsize : 21 ≤ size) :
    (num2str (·.srem 10#64) (·.sdiv 10#64) true m buf size (BitVec.intMin 64)).mem (buf + 19) =
      chr '(' := by
  have hfuel : pow10lst.length = 19 + 1 := rfl
  have hquot : ¬ (BitVec.intMin 64).sdiv 10#64 = 0 := by decide
  have hlast : buf + (19 + 1) - 1 = buf + 19 := rfl
  rw [num2str]
  dsimp only
  rw [numLen_min, Bool.toNat_true, if_neg (by omega), hfuel, storeDigits]
  dsimp only
  rw [if_neg hquot, storeDigits_ge 19 _ _ _ (by omega) (by omega), hlast]
  exact write_of_mem (i := 0) (by decide)

theorem snum2str_min (hbuf : 0 < buf) :
    Exact (BtEncode.decimalInt (BitVec.intMin 64).toInt) ustr2s64 m buf size (BitVec.intMin 64)
        (snum2str m buf size (BitVec.intMin 64)) ↔
      size ≤ (BtEncode.decimalInt (BitVec.intMin 64).toInt).length := by
  obtain ⟨pre, hpre, htext⟩ := decimalInt_min
  have hlen : (pre ++ [chr '8']).length = 20 := by
    rw [List.length_append, hpre, List.length_singleton]
  rw [htext, hlen]
  by_cases hsize : size = 0
  · rw [hsize, snum2str, if_pos (.inr rfl)]
    exact iff_of_true exact_einval (by omega)
  · have hsub : (0 : BitVec 64) - BitVec.intMin 64 = BitVec.intMin 64 := by decide
    rw [snum2str_neg hbuf (by omega) (by decide), hsub]
    by_cases hok : (num2str (·.srem 10#64) (·.sdiv 10#64) true m buf size
        (BitVec.intMin 64)).error = none
    · have hfits := num2str_error.mp hok
      rw [numLen_min, Bool.toNat_true] at hfits
      refine iff_of_false (fun h => ?_) (by omega)
      have hbyte : write m buf (pre ++ [chr '8'] ++ [0]) (buf + 19) = chr '8' := by
        rw [write, if_pos (by omega), Nat.add_sub_cancel_left, List.append_assoc,
          List.getElem?_append_right (by omega), hpre]
        rfl
      rw [← (h.stored hok).2, num2str_min_mem hbuf hfits] at hbyte
      exact absurd hbyte (by decide)
    · have hfits := mt num2str_error.mpr hok
      rw [numLen_min, Bool.toNat_true] at hfits
      refine iff_of_true ⟨iff_of_false hok (by omega), fun h => absurd h hok, fun a _ => ?_,
        fun h => absurd h hok⟩ (by omega)
      rw [num2str_mem_error hok]

theorem snum2str_exact_iff (hbuf : 0 < buf) (hmin : num ≠ BitVec.intMin 64) :
    Exact (BtEncode.decimalInt num.toInt) ustr2s64 m buf size num (snum2str m buf size num) ↔
      (IsPow10 num.toInt.natAbs → size < (BtEncode.decimalInt num.toInt).length) := by
  by_cases hsize : size = 0
  · have hpos := List.length_pos_iff.mpr (BtEncode.decimal_ne_nil num.toInt.natAbs)
    rw [hsize, snum2str, if_pos (.inr rfl), decimalInt_eq, List.length_append]
    exact iff_of_true exact_einval fun _ => by omega
  · have hback := BtEncode.ustr2s64_decimalInt num
    have hbound : num.toInt.natAbs < 2 ^ 63 := natAbs_lt hmin
    rw [decimalInt_eq] at hback ⊢
    by_cases hneg : num.slt 0
    · have habs : num.toInt.natAbs = (0 - num).toNat := natAbs_neg hneg
      rw [snum2str_neg hbuf (by omega) hneg, hneg]
      rw [hneg] at hback
      rw [habs] at hback hbound ⊢
      exact num2str_exact_iff true divTen_signed hbound hback
    · have habs : num.toInt.natAbs = num.toNat := natAbs_nonneg hneg
      rw [snum2str_nonneg hbuf (by omega) hneg]
      rw [Bool.not_eq_true] at hneg
      rw [hneg]
      rw [hneg] at hback
      rw [habs] at hback hbound ⊢
      exact num2str_exact_iff false divTen_signed hbound hback

theorem unum2str_front {front text : List Byte} (hne : front ≠ []) (hle : front.length ≤ buf)
    (hfront : read m (buf - front.length) front.length = front)
    (h : Num2Str.unum2str front size num.toNat = .ok text) :
    (unum2str m buf size num).error = none ∧
      read (unum2str m buf size num).mem (buf - front.length) text.length = text := by
  have hpos := List.length_pos_iff.mpr hne
  have h20 := toNat_lt_pow20 num
  unfold Num2Str.unum2str at h
  rw [numText_eq h20] at h
  split at h
  · cases h
  split at h
  · cases h
  · have hlen : numLen num.toNat ≤ (BtEncode.decimal num.toNat).length ∧
        (BtEncode.decimal num.toNat).length ≤ numLen num.toNat + 1 := by
      rcases length_numText num.isLt with ⟨hshort, hexact⟩
      rw [numText_eq h20] at hshort hexact
      by_cases hpow : IsPow10 num.toNat
      · have := hshort hpow
        omega
      · have := hexact hpow
        omega
    have hmem := storeDigits_eq divTen_unsigned pow10lst.length num
      (buf + numLen num.toNat - (BtEncode.decimal num.toNat).length)
      (write m (buf + numLen num.toNat) [0]) num.isLt h20 (by decide)
    rw [Nat.sub_add_cancel (by omega)] at hmem
    rw [unum2str_eq (by omega) (by omega), num2str]
    simp only [Bool.toNat_false, Nat.add_zero]
    rw [if_neg (by omega), if_neg Bool.false_ne_true, hmem, ← Except.ok.inj h]
    refine ⟨rfl, ?_⟩
    generalize BtEncode.decimal num.toNat = digits at hlen
    -- what is in front of the digits is as it was
    have hfirst : (front.take (front.length + numLen num.toNat - digits.length)).length =
        front.length + numLen num.toNat - digits.length := by
      rw [List.length_take]
      omega
    have hstart : buf - front.length + (front.length + numLen num.toNat - digits.length) =
        buf + numLen num.toNat - digits.length := by omega
    rw [List.length_append, hfirst, read_append, hstart, read_write_self,
      read_write_of_disjoint (.inl (by omega)), read_write_of_disjoint (.inl (by omega))]
    rw [← take_read (n := front.length) (by omega), hfront]

/-! ## The call -/

/-- The text of a number is exact, but for the powers of ten, whose length is counted one short, and
for the least number: there the call is right only where it fails for want of room. -/
theorem exact_iff (m : Memory) {buf : Nat} (hbuf : 0 < buf) (size : Nat) (num : BitVec 64) :
    (Exact (BtEncode.decimal num.toNat) ustr2usize m buf size num (unum2str m buf size num) ↔
      (IsPow10 num.toNat → size < (BtEncode.decimal num.toNat).length)) ∧
    (Exact (BtEncode.decimalInt num.toInt) ustr2s64 m buf size num (snum2str m buf size num) ↔
      (IsPow10 num.toInt.natAbs → size < (BtEncode.decimalInt num.toInt).length) ∧
        (num = BitVec.intMin 64 → size ≤ (BtEncode.decimalInt num.toInt).length)) := by
  refine ⟨unum2str_exact_iff hbuf, ?_⟩
  by_cases hmin : num = BitVec.intMin 64
  · have hpow : ¬ IsPow10 num.toInt.natAbs := by
      rintro ⟨k, hk⟩
      have habs : (BitVec.intMin 64).toInt.natAbs = 9223372036854775808 := by decide
      rw [hmin, habs, Nat.pow_succ] at hk
      omega
    rw [iff_true_intro (fun h => absurd h hpow), true_and, hmin, snum2str_min hbuf]
    exact ⟨fun h _ => h, fun h => h rfl⟩
  · rw [snum2str_exact_iff hbuf hmin]
    exact ⟨fun h => ⟨h, fun h => absurd h hmin⟩, And.left⟩

/-- One power of ten, one number that is none, and the least one, each in a buffer of 32 bytes. -/
theorem exact_iff_ten : ¬ Exact (BtEncode.decimal (10#64).toNat) ustr2usize (fun _ => 0) 64 32 10#64
      (unum2str (fun _ => 0) 64 32 10#64) ∧
    Exact (BtEncode.decimalInt (-7#64).toInt) ustr2s64 (fun _ => 0) 64 32 (-7#64)
      (snum2str (fun _ => 0) 64 32 (-7#64)) ∧
    ¬ Exact (BtEncode.decimalInt (BitVec.intMin 64).toInt) ustr2s64 (fun _ => 0) 64 32
      (BitVec.intMin 64) (snum2str (fun _ => 0) 64 32 (BitVec.intMin 64)) := by
  have hseven : ¬ IsPow10 7 := by
    rintro ⟨k, hk⟩
    rw [Nat.pow_succ] at hk
    omega
  refine ⟨fun h => ?_, (exact_iff _ (by decide) 32 (-7#64)).2.mpr ⟨fun h => absurd h hseven, ?_⟩,
    fun h => ?_⟩
  · have hsize := (exact_iff _ (by decide) 32 10#64).1.mp h ⟨0, rfl⟩
    rw [length_decimal 1 (by decide) (by decide)] at hsize
    omega
  · intro h
    exact absurd h (by decide)
  · have hsize := ((exact_iff _ (by decide) 32 (BitVec.intMin 64)).2.mp h).2 rfl
    obtain ⟨pre, hpre, htext⟩ := decimalInt_min
    rw [htext, List.length_append, hpre, List.length_singleton] at hsize
    omega

/-- Ten in a buffer of three bytes: the first digit is in front of the buffer. -/
theorem ten_not_exact : ¬ Exact (BtEncode.decimal (10#64).toNat) ustr2usize (fun _ => 0) 64 3 10#64
    (unum2str (fun _ => 0) 64 3 10#64) := by
  intro h
  have hfront := h.frame 63 (.inl (by decide))
  exact absurd hfront (by decide)

end Numbers

end NumText
