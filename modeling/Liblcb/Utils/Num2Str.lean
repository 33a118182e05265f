import Liblcb.Utils.BtEncodeSpec
import Liblcb.Utils.Wire

/-!
# Decimal text

`UNUM2STR` of `utils/num2str.h`.  The text is stored from its last digit to its first, so a length
that is a digit short makes it start in front of the buffer.
-/

namespace Num2Str

open Mem

def pow10lst : List Nat :=
  [0, 10, 100, 1000, 10000, 100000, 1000000, 10000000, 100000000, 1000000000, 10000000000,
   100000000000, 1000000000000, 10000000000000, 100000000000000, 1000000000000000, 10000000000000000,
   100000000000000000, 1000000000000000000, 10000000000000000000]

def lenLoop (num : Nat) : Nat → Nat → Nat
  | 0, len => len
  | fuel + 1, len =>
    if len < pow10lst.length ∧ pow10lst.getD len 0 < num then lenLoop num fuel (len + 1) else len

def numLen (num : Nat) : Nat := lenLoop num pow10lst.length 1

/-- The loop that stores the digits in front of `text`. -/
def digitsLoop : Nat → Nat → List Byte → List Byte
  | 0, _, text => text
  | fuel + 1, num, text =>
    let text := BitVec.ofNat 8 (48 + num % 10) :: text
    if num / 10 = 0 then text else digitsLoop fuel (num / 10) text

def numText (num : Nat) : List Byte := digitsLoop pow10lst.length num []

/-- `UNUM2STR`: `front` is what stands in front of the buffer, and the result is what stands in front
of the terminating zero. -/
def unum2str (front : List Byte) (bufSize num : Nat) : Except Errno (List Byte) :=
  if bufSize = 0 then .error .einval
  else if bufSize < numLen num + 1 then .error .enospc
  else .ok (front.take (front.length + numLen num - (numText num).length) ++ numText num)

/-- The numbers whose length comes out a digit short. -/
def IsPow10 (num : Nat) : Prop := ∃ k, num = 10 ^ (k + 1)

/-! ## The digits -/

theorem digitsLoop_eq : ∀ (fuel num : Nat) (text : List Byte), num < 10 ^ fuel → 0 < fuel →
    digitsLoop fuel num text = BtEncode.decimal num ++ text
  | 0, _, _, _, hfuel => absurd hfuel (Nat.lt_irrefl 0)
  | fuel + 1, num, text, hnum, _ => by
    rw [digitsLoop, BtEncode.decimal]
    by_cases hlast : num < 10
    · rw [if_pos (Nat.div_eq_of_lt hlast), if_pos hlast, Nat.mod_eq_of_lt hlast]
      rfl
    · have hdiv : num / 10 < 10 ^ fuel := by
        rw [Nat.div_lt_iff_lt_mul (by decide), ← Nat.pow_succ]
        exact hnum
      have hfuel : 0 < fuel := by
        by_contra hzero
        rw [Nat.eq_zero_of_not_pos hzero] at hdiv
        omega
      rw [if_neg (by omega), if_neg hlast, digitsLoop_eq fuel _ _ hdiv hfuel, List.append_assoc]
      rfl

theorem numText_eq {num : Nat} (hnum : num < 10 ^ 20) : numText num = BtEncode.decimal num := by
  rw [numText, digitsLoop_eq pow10lst.length num [] hnum (by decide), List.append_nil]

theorem length_decimal : ∀ (k : Nat) {num : Nat}, 10 ^ k ≤ num → num < 10 ^ (k + 1) →
    (BtEncode.decimal num).length = k + 1
  | 0, num, _, hlt => by
    rw [BtEncode.decimal, if_pos (by omega)]
    rfl
  | k + 1, num, hle, hlt => by
    have hpos : 1 ≤ 10 ^ k := Nat.one_le_pow _ _ (by decide)
    have hten : ¬ num < 10 := by
      rw [Nat.pow_succ] at hle
      omega
    have hle' : 10 ^ k ≤ num / 10 := by
      rw [Nat.le_div_iff_mul_le (by decide), ← Nat.pow_succ]
      exact hle
    have hlt' : num / 10 < 10 ^ (k + 1) := by
      rw [Nat.div_lt_iff_lt_mul (by decide), ← Nat.pow_succ]
      exact hlt
    rw [BtEncode.decimal, if_neg hten, List.length_append, length_decimal k hle' hlt']
    rfl

/-! ## Their number -/

theorem pow10lst_eq : ∀ len, 0 < len → len < pow10lst.length → pow10lst.getD len 0 = 10 ^ len := by
  intro len hpos hlt
  have hall : ∀ i < 20, 0 < i → pow10lst.getD i 0 = 10 ^ i := by decide
  exact hall len hlt hpos

theorem lenLoop_spec (num : Nat) : ∀ (fuel len : Nat), 0 < len → len ≤ pow10lst.length →
    pow10lst.length ≤ fuel + len → (len = 1 ∨ 10 ^ (len - 1) < num) →
    0 < lenLoop num fuel len ∧ (lenLoop num fuel len = pow10lst.length ∨
      num ≤ 10 ^ lenLoop num fuel len) ∧
      (lenLoop num fuel len = 1 ∨ 10 ^ (lenLoop num fuel len - 1) < num)
  | 0, len, hpos, hle, hfuel, hlow => ⟨hpos, .inl (by rw [lenLoop]; omega), hlow⟩
  | fuel + 1, len, hpos, hle, hfuel, hlow => by
    rw [lenLoop]
    by_cases hmore : len < pow10lst.length ∧ pow10lst.getD len 0 < num
    · rw [if_pos hmore]
      refine lenLoop_spec num fuel (len + 1) (by omega) hmore.1 (by omega) (.inr ?_)
      rw [Nat.add_sub_cancel, ← pow10lst_eq len hpos hmore.1]
      exact hmore.2
    · rw [if_neg hmore]
      refine ⟨hpos, ?_, hlow⟩
      by_cases hend : len = pow10lst.length
      · exact .inl hend
      · right
        rw [← pow10lst_eq len hpos (by omega)]
        by_contra hlt
        exact hmore ⟨by omega, by omega⟩

theorem length_numText {num : Nat} (hnum : num < 2 ^ 64) :
    (IsPow10 num → (numText num).length = numLen num + 1) ∧
      (¬ IsPow10 num → (numText num).length = numLen num) := by
  have h20 : num < 10 ^ 20 := by
    have : (2 : Nat) ^ 64 < 10 ^ 20 := by decide
    omega
  rcases lenLoop_spec num pow10lst.length 1 (by decide) (by decide) (by decide) (.inl rfl) with
    ⟨hpos, hhigh, hlow⟩
  rw [← numLen] at hpos hhigh hlow
  rw [numText_eq h20]
  have hlen : pow10lst.length = 20 := rfl
  rw [hlen] at hhigh
  generalize numLen num = len at *
  obtain ⟨k, rfl⟩ : ∃ k, len = k + 1 := ⟨len - 1, by omega⟩
  rw [Nat.add_sub_cancel] at hlow
  have hhigh' : num ≤ 10 ^ (k + 1) := by
    rcases hhigh with heq | hle
    · rw [heq]
      omega
    · exact hle
  constructor
  · rintro ⟨j, rfl⟩
    have hj : j = k := by
      have hjle : j + 1 ≤ k + 1 := (Nat.pow_le_pow_iff_right (by decide)).mp hhigh'
      rcases hlow with hone | hlt
      · omega
      · have := (Nat.pow_lt_pow_iff_right (by decide)).mp hlt
        omega
    rw [hj]
    exact length_decimal (k + 1) (Nat.le_refl _) (Nat.pow_lt_pow_right (by decide) (by omega))
  · intro hno
    have hlt : num < 10 ^ (k + 1) := by
      rcases Nat.lt_or_eq_of_le hhigh' with hlt | heq
      · exact hlt
      · exact absurd ⟨k, heq⟩ hno
    rcases hlow with hone | hlow
    · -- a single digit, zero included
      have hk : k = 0 := by omega
      subst hk
      rw [BtEncode.decimal, if_pos (by omega)]
      rfl
    · exact length_decimal k (Nat.le_of_lt hlow) hlt

theorem numLen_le {num k : Nat} (hk : 0 < k) (hnum : num ≤ 10 ^ k) : numLen num ≤ k := by
  rcases (lenLoop_spec num pow10lst.length 1 (by decide) (by decide) (by decide) (.inl rfl)).2.2 with
    hone | hlow
  · rw [numLen, hone]
    exact hk
  · have hlt := (Nat.pow_lt_pow_iff_right (by decide)).mp (Nat.lt_of_lt_of_le hlow hnum)
    rw [numLen]
    omega

theorem unum2str_isOk (front : List Byte) {bufSize num : Nat} (h : numLen num < bufSize) :
    ∃ text, unum2str front bufSize num = .ok text :=
  ⟨_, by rw [unum2str, if_neg (Nat.ne_zero_of_lt h), if_neg (by omega)]⟩

theorem unum2str_ok {front text : List Byte} {bufSize num : Nat} (hnum : num < 2 ^ 64)
    (h : unum2str front bufSize num = .ok text) :
    (IsPow10 num → text = front.dropLast ++ BtEncode.decimal num) ∧
      (¬ IsPow10 num → text = front ++ BtEncode.decimal num) := by
  have h20 : num < 10 ^ 20 := by
    have : (2 : Nat) ^ 64 < 10 ^ 20 := by decide
    omega
  unfold unum2str at h
  split at h
  · cases h
  · split at h
    · cases h
    · have htext := (Except.ok.inj h).symm
      rcases length_numText hnum with ⟨hshort, hexact⟩
      rw [numText_eq h20] at htext hshort hexact
      constructor
      · intro hp
        rw [htext, hshort hp, List.dropLast_eq_take]
        congr 2
        omega
      · intro hp
        rw [htext, hexact hp, Nat.add_sub_cancel, List.take_length]

end Num2Str
