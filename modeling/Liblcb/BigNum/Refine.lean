import Liblcb.BigNum.DigitsSpec
import Liblcb.BigNum.Ops

/-!
# The digit loops compute what `Num` says

The representation invariant of `bn_t`, the number a record stands for, and for every operation of
the interface that it keeps the invariant and acts on the number as its `Num` counterpart does.
-/

namespace BigNum

open Limbs StateErr

/-- Arguments seen through a map of the numbers. -/
@[reducible] def Arg.map {B B' : Type} (φ : B → B') : Arg B → Arg B'
  | .self => .self
  | .val x => .val (φ x)

@[reducible] def Rem.map {B B' : Type} (φ : B → B') : Rem B → Rem B'
  | .null => .null
  | .self => .self
  | .other r => .other (φ r)

@[simp] theorem Arg.map_self {B B' : Type} (φ : B → B') : Arg.map φ .self = .self := rfl

@[simp] theorem Arg.map_val {B B' : Type} (φ : B → B') (x : B) :
    Arg.map φ (.val x) = .val (φ x) := rfl

@[simp] theorem Arg.get_map {B B' : Type} (φ : B → B') (a : Arg B) (s : B) :
    (a.map φ).get (φ s) = φ (a.get s) := by
  cases a <;> rfl

namespace Bn

/-- The representation invariant: the digits in use fit the capacity, the capacity fits the array,
and the top digit in use is not zero. -/
structure WF (b : Bn) : Prop where
  digits_le : b.digits ≤ b.count
  count_le : b.count ≤ 32
  top : b.digits = 0 ∨ b.dig (b.digits - 1) ≠ 0

/-- The number a record stands for. -/
def value (b : Bn) : Nat := Limbs.val b.sig

def abs (b : Bn) : Num := ⟨b.count, b.value⟩

@[simp] theorem abs_count (b : Bn) : b.abs.count = b.count := rfl

@[simp] theorem abs_val (b : Bn) : b.abs.val = b.value := rfl

theorem length_sig {b : Bn} (hd : b.digits ≤ 32) : b.sig.length = b.digits := by
  rw [sig, List.length_take, b.num.length_toList]
  omega

theorem sig_concat {b : Bn} (hpos : 0 < b.digits) (hd : b.digits ≤ 32) :
    b.sig = b.num.toList.take (b.digits - 1) ++ [b.dig (b.digits - 1)] := by
  have hlt : b.digits - 1 < b.num.toList.length := by
    rw [b.num.length_toList]
    omega
  rw [sig, dig, List.getD_eq_getElem _ _ hlt, ← List.take_succ_eq_append_getElem hlt,
    Nat.sub_add_cancel hpos]

namespace WF

variable {b : Bn}

theorem digits_le_32 (h : b.WF) : b.digits ≤ 32 := h.digits_le.trans h.count_le

theorem length_sig (h : b.WF) : b.sig.length = b.digits := Bn.length_sig h.digits_le_32

theorem value_lt (h : b.WF) : b.value < 2 ^ (64 * b.digits) := by
  have hlt := val_lt b.sig
  rwa [h.length_sig] at hlt

theorem value_lt_cap (h : b.WF) : b.value < 2 ^ (64 * b.count) :=
  h.value_lt.trans_le (Nat.pow_le_pow_right (by decide) (Nat.mul_le_mul_left _ h.digits_le))

theorem digits_eq (h : b.WF) : b.digits = limbCount 64 b.value := by
  by_cases h0 : b.digits = 0
  · rw [value, sig, h0]
    rfl
  · have htop := h.top.resolve_left h0
    rw [value, sig_concat (by omega) h.digits_le_32, limbCount_val_concat (by decide) _ htop,
      List.length_take, b.num.length_toList]
    have := h.digits_le_32
    omega

theorem digits_eq_zero (h : b.WF) : b.digits = 0 ↔ b.value = 0 := by
  rw [h.digits_eq, limbCount_eq_zero]

end WF

theorem dig_eq_sig (b : Bn) {i : Nat} (hi : i < b.digits) : b.dig i = b.sig.getD i 0 := by
  rw [dig, sig, List.getD_eq_getElem?_getD, List.getD_eq_getElem?_getD, List.getElem?_take,
    if_pos hi]

theorem wf_of_sig {b x : Bn} (hx : x.WF) (hsig : b.sig = x.sig) (hd : b.digits = x.digits)
    (hdc : b.digits ≤ b.count) (hc : b.count ≤ 32) : b.WF := by
  refine ⟨hdc, hc, ?_⟩
  by_cases h0 : x.digits = 0
  · exact Or.inl (hd.trans h0)
  · right
    rw [dig_eq_sig b (by omega), hsig, hd, ← dig_eq_sig x (by omega)]
    exact hx.top.resolve_left h0

/-! ## `bn_init_digits__int`, `bn_update_digits__int` and array writes -/

@[simp] theorem write_count (b : Bn) (l : List Digit) : (b.write l).count = b.count := rfl

@[simp] theorem write_digits (b : Bn) (l : List Digit) : (b.write l).digits = b.digits := rfl

theorem write_toList (b : Bn) {l : List Digit} (hl : l.length ≤ 32) :
    (b.write l).num.toList = l ++ b.num.toList.drop l.length := by
  simp only [write, List.take_of_length_le hl]

theorem take_write (b : Bn) {l : List Digit} (hl : l.length ≤ 32) {k : Nat} (hk : k ≤ l.length) :
    (b.write l).num.toList.take k = l.take k := by
  rw [write_toList b hl, List.take_append_of_le_length hk]

@[simp] theorem bnInitDigits_count (b : Bn) (off : Nat) :
    (b.bnInitDigits off).count = b.count := by
  rw [bnInitDigits]
  split <;> rfl

@[simp] theorem bnInitDigits_digits (b : Bn) (off : Nat) :
    (b.bnInitDigits off).digits = b.digits := by
  rw [bnInitDigits]
  split <;> rfl

theorem bnInitDigits_take {b : Bn} (hd : b.digits ≤ b.count) (hc : b.count ≤ 32) (off : Nat)
    {k : Nat} (hk : b.digits ≤ k) (hk' : k ≤ max b.digits (min off b.count)) :
    (b.bnInitDigits off).num.toList.take k = b.sig ++ List.replicate (k - b.digits) 0 := by
  have hlen := Bn.length_sig (hd.trans hc)
  rw [bnInitDigits]
  split
  · have hkd : k = b.digits := by omega
    rw [hkd, Nat.sub_self, List.replicate_zero, List.append_nil, sig]
  · have hl : (b.num.toList.take b.digits ++
        List.replicate (min off b.count - b.digits) 0).length = min off b.count := by
      rw [List.length_append, List.length_replicate, ← sig, hlen]
      omega
    rw [take_write _ (by rw [hl]; omega) (by rw [hl]; omega), ← sig,
      List.take_append, hlen, List.take_of_length_le (by rw [hlen]; exact hk),
      List.take_replicate, Nat.min_eq_left (by omega)]

theorem bnInitDigits_val_take {b : Bn} (hd : b.digits ≤ b.count) (hc : b.count ≤ 32) (off : Nat)
    {k : Nat} (hk : b.digits ≤ k) (hk' : k ≤ max b.digits (min off b.count)) :
    Limbs.val ((b.bnInitDigits off).num.toList.take k) = b.value := by
  rw [bnInitDigits_take hd hc off hk hk', val_append, val_replicate_zero, Nat.mul_zero,
    Nat.add_zero, value]

@[simp] theorem bnInitDigits_sig {b : Bn} (h : b.WF) (off : Nat) :
    (b.bnInitDigits off).sig = b.sig := by
  rw [sig, bnInitDigits_digits, bnInitDigits_take h.digits_le h.count_le off le_rfl
    (Nat.le_max_left _ _), Nat.sub_self, List.replicate_zero, List.append_nil]

theorem bnInitDigits_wf {b : Bn} (h : b.WF) (off : Nat) :
    (b.bnInitDigits off).WF ∧ (b.bnInitDigits off).abs = b.abs := by
  constructor
  · exact wf_of_sig h (bnInitDigits_sig h off) (by simp) (by simpa using h.digits_le)
      (by simpa using h.count_le)
  · rw [abs, abs, value, bnInitDigits_sig h, bnInitDigits_count, value]

theorem wf_of_calcDigits {b : Bn} {k : Nat} (hc : b.count ≤ 32) (hk : k ≤ b.count) :
    WF { b with digits := bnDigitsCalcDigits (b.num.toList.take k) } ∧
    value { b with digits := bnDigitsCalcDigits (b.num.toList.take k) } =
      Limbs.val (b.num.toList.take k) := by
  rw [bnDigitsCalcDigits_eq]
  generalize hv : Limbs.val (b.num.toList.take k) = v
  have hvlt : v < 2 ^ (64 * k) := by
    have hlt := val_lt (b.num.toList.take k)
    rw [hv, List.length_take] at hlt
    exact hlt.trans_le (Nat.pow_le_pow_right (by decide) (Nat.mul_le_mul_left _ (Nat.min_le_left _ _)))
  have hle : limbCount 64 v ≤ k := (limbCount_le_iff (by decide) v k).mpr hvlt
  have hval : Limbs.val (b.num.toList.take (limbCount 64 v)) = v := by
    have hmod : Limbs.val (b.num.toList.take (limbCount 64 v)) =
        Limbs.val (b.num.toList.take k) % 2 ^ (64 * limbCount 64 v) := by
      rw [← val_take, List.take_take, Nat.min_eq_left hle]
    rw [hmod, hv, Nat.mod_eq_of_lt (lt_pow_limbCount (by decide) v)]
  refine ⟨⟨hle.trans hk, hc, ?_⟩, hval⟩
  by_cases h0 : limbCount 64 v = 0
  · exact Or.inl h0
  · right
    -- a zero top digit would leave a number that needs fewer digits
    intro htop
    have hsmall : v < 2 ^ (64 * (limbCount 64 v - 1)) := by
      have hcat := sig_concat (b := { b with digits := limbCount 64 v })
        (Nat.pos_of_ne_zero h0) ((hle.trans hk).trans hc)
      rw [htop] at hcat
      have hvcat := congrArg Limbs.val hcat
      rw [val_append] at hvcat
      simp only [sig, hval, val_cons, val_nil] at hvcat
      have hlow := val_lt (b.num.toList.take (limbCount 64 v - 1))
      rw [show (0 : Digit).toNat = 0 from rfl, Nat.mul_zero, Nat.add_zero, Nat.mul_zero,
        Nat.add_zero] at hvcat
      rw [← hvcat] at hlow
      exact hlow.trans_le (Nat.pow_le_pow_right (by decide)
        (Nat.mul_le_mul_left _ (List.length_take_le _ _)))
    have := (limbCount_le_iff (by decide : 0 < 64) v _).mpr hsmall
    omega

/-- How far `bn_update_digits__int` looks. -/
def updateSpan (b : Bn) (digits : Nat) : Nat :=
  if b.count ≤ digits then b.count else max digits b.digits

theorem bnUpdateDigits_spec {b : Bn} (hd : b.digits ≤ b.count) (hc : b.count ≤ 32) (digits : Nat) :
    (b.bnUpdateDigits digits).WF ∧ (b.bnUpdateDigits digits).abs =
      ⟨b.count, Limbs.val (b.num.toList.take (b.updateSpan digits))⟩ := by
  have hcalc : ∀ k, k ≤ b.count →
      WF { b with digits := bnDigitsCalcDigits (b.num.toList.take k) } ∧
      abs { b with digits := bnDigitsCalcDigits (b.num.toList.take k) } =
        ⟨b.count, Limbs.val (b.num.toList.take k)⟩ := by
    intro k hk
    rcases wf_of_calcDigits hc hk with ⟨hwf, hval⟩
    exact ⟨hwf, by rw [abs, hval]⟩
  rw [bnUpdateDigits, updateSpan]
  by_cases h1 : b.count ≤ digits
  · rw [if_pos h1, if_pos h1]
    exact hcalc _ le_rfl
  · rw [if_neg h1, if_neg h1]
    by_cases h2 : digits < b.digits
    · rw [if_pos h2, Nat.max_eq_right h2.le]
      exact hcalc _ hd
    · rw [if_neg h2, Nat.max_eq_left (by omega)]
      by_cases h3 : b.digits < digits ∧ b.dig (digits - 1) ≠ 0
      · rw [if_pos h3]
        exact ⟨⟨by simp; omega, hc, Or.inr h3.2⟩, rfl⟩
      · rw [if_neg h3]
        exact hcalc _ (by omega)

theorem write_update {b : Bn} (hd : b.digits ≤ b.count) (hc : b.count ≤ 32) {l : List Digit}
    {k : Nat} (hl : l.length ≤ b.count) (hspan : b.updateSpan k ≤ l.length) :
    ((b.write l).bnUpdateDigits k).WF ∧
    ((b.write l).bnUpdateDigits k).abs =
      ⟨b.count, Limbs.val l % 2 ^ (64 * b.updateSpan k)⟩ := by
  rcases bnUpdateDigits_spec (b := b.write l) hd hc k with ⟨hwf, habs⟩
  refine ⟨hwf, ?_⟩
  have hsame : (b.write l).updateSpan k = b.updateSpan k := rfl
  rw [habs, hsame, take_write b (hl.trans hc) hspan, val_take, write_count]

end Bn

end BigNum
