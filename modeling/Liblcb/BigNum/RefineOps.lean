import Liblcb.BigNum.Refine

/-!
# Refinement of the single operations

For each operation of `bn_t` except division: it keeps the representation invariant and acts on the
number as the operation of `Num` with its name does.
-/

namespace BigNum

open Limbs StateErr

/-- The action `f` on records keeps the invariant and acts on the number as `g` does. -/
def Refines {α : Type} (f : BnM Bn α) (g : BnM Num α) : Prop :=
  ∀ b : Bn, b.WF → mapRes Bn.abs id (f b) = g b.abs ∧ (stateOf (f b)).WF

theorem Refines.ok {α : Type} {f : BnM Bn α} {g : BnM Num α} (h : Refines f g) {b : Bn}
    (hb : b.WF) {a : α} {x : Num} (hg : g b.abs = .ok a x) :
    ∃ t, f b = .ok a t ∧ t.abs = x ∧ t.WF := by
  rcases h b hb with ⟨heq, hwf⟩
  rw [hg] at heq
  cases hf : f b with
  | ok a' t =>
    rw [hf] at heq hwf
    rw [mapRes_ok] at heq
    injection heq with ha ht
    exact ⟨t, by rw [← ha]; rfl, ht, hwf⟩
  | error e t =>
    rw [hf] at heq
    cases heq

/-- A pointer argument to a normalised record. -/
def Arg.WF (n : Arg Bn) : Prop := ∀ x, n = .val x → x.WF

theorem Arg.WF.get {n : Arg Bn} (hn : n.WF) {b : Bn} (hb : b.WF) : (n.get b).WF := by
  cases n with
  | self => exact hb
  | val x => exact hn x rfl

namespace Bn

theorem wf_zero_digits {b : Bn} (hc : b.count ≤ 32) : WF { b with digits := 0 } :=
  ⟨Nat.zero_le _, hc, Or.inl rfl⟩

theorem abs_zero_digits (b : Bn) : abs { b with digits := 0 } = ⟨b.count, 0⟩ := by
  simp [abs, value, sig]

theorem bnInit_refines (bits : Nat) : Refines (bnInit bits) (Num.bnInit bits) := by
  intro b hb
  rw [bnInit, Num.bnInit]
  by_cases h : 2048 < bits ∨ bits = 0
  · rw [if_pos h, if_pos h]
    exact ⟨rfl, hb⟩
  · rw [if_neg h, if_neg h, if_neg (by omega)]
    refine ⟨?_, ⟨Nat.zero_le _, ?_, Or.inl rfl⟩⟩
    · simp [abs, value, sig]
    · simp only [stateOf_ok]
      omega

theorem bnAssign_refines {src : Arg Bn} (hsrc : src.WF) :
    Refines (bnAssign src) (Num.bnAssign (src.map abs)) := by
  intro b hb
  cases src with
  | self => exact ⟨rfl, hb⟩
  | val x =>
    have hx := hsrc x rfl
    have hxl := hx.length_sig
    have hx32 := hx.digits_le_32
    simp only [bnAssign, Num.bnAssign, abs_count, abs_val, ← hx.digits_eq]
    by_cases h : b.count < x.digits
    · rw [if_pos h, if_pos h]
      exact ⟨rfl, hb⟩
    · rw [if_neg h, if_neg h]
      have hsig : sig ⟨b.count, x.digits, (b.write x.sig).num⟩ = x.sig := by
        have htake := take_write b (l := x.sig) (by omega) (k := x.digits) (by omega)
        rwa [List.take_of_length_le (l := x.sig) (by omega)] at htake
      constructor
      · simp only [mapRes_ok, abs, write_count, value, hsig, id]
      · exact wf_of_sig hx hsig rfl (by simp; omega) hb.count_le

theorem bnAssignInit_refines {src : Arg Bn} (hsrc : src.WF) :
    Refines (bnAssignInit src) (Num.bnAssignInit (src.map abs)) := by
  intro b hb
  cases src with
  | self => exact ⟨rfl, hb⟩
  | val x =>
    have hx := hsrc x rfl
    -- the record written is the one `bn_assign` writes into a number of the right capacity
    have hcap : WF { b with count := x.count, digits := 0 } :=
      ⟨Nat.zero_le _, hx.count_le, Or.inl rfl⟩
    have h := bnAssign_refines hsrc _ hcap
    have hfit : ¬ x.count < x.digits := Nat.not_lt.mpr hx.digits_le
    simp only [bnAssign, if_neg hfit, Num.bnAssign, abs_count, abs_val,
      ← hx.digits_eq] at h
    exact ⟨h.1, h.2⟩

theorem bnAssignZero_refines : Refines bnAssignZero Num.bnAssignZero := by
  intro b hb
  exact ⟨by simp [bnAssignZero, Num.bnAssignZero, abs, value, sig], wf_zero_digits hb.count_le⟩

theorem bnAssignDigit_refines {d : Digit} (hd : d ≠ 0) :
    Refines (bnAssignDigit d) (Num.bnAssignDigit d) := by
  intro b hb
  rw [bnAssignDigit, Num.bnAssignDigit, abs_count]
  by_cases h : b.count = 0
  · rw [if_pos h, if_pos h]
    exact ⟨rfl, hb⟩
  · rw [if_neg h, if_neg h]
    have hlen := b.num.length_toList
    have hhead : (b.num.toList.set 0 d).take 1 = [d] := by
      match hl : b.num.toList, hlen with
      | x :: xs, _ => simp
    have hdig : (b.num.toList.set 0 d).getD 0 0 = d := by
      match hl : b.num.toList, hlen with
      | x :: xs, _ => simp
    refine ⟨?_, ⟨?_, hb.count_le, Or.inr ?_⟩⟩
    · simp [abs, value, sig, setDig, hhead]
    · simp only [stateOf_ok]
      show 1 ≤ b.count
      omega
    · simp only [stateOf_ok, dig, setDig]
      rw [Nat.sub_self, hdig]
      exact hd

/-! ## Sums and differences

The loops of `bn_add` and `bn_sub` run over the whole capacity, also over stale digits.  The digit
above the operands is cleared first, so that nothing is carried into them. -/

private theorem add_below {m q x S y r c : Nat} (hV : x + m * S < m * q) (h : r + m * q * c = x + m * S + y) (hfit : x + y < m) :
    r % m = x + y ∧ c = 0 := by
  have hS : S < q := by
    by_contra hn
    have := Nat.mul_le_mul_left m (Nat.not_lt.mp hn)
    omega
  have hle : m * (S + 1) ≤ m * q := Nat.mul_le_mul_left m hS
  rw [Nat.mul_add, Nat.mul_one] at hle
  have hc : c = 0 := by
    by_contra hn
    have : m * q ≤ m * q * c := Nat.le_mul_of_pos_right _ (Nat.pos_of_ne_zero hn)
    omega
  rw [hc, Nat.mul_zero, Nat.add_zero] at h
  refine ⟨?_, hc⟩
  rw [h, Nat.add_right_comm, Nat.add_mul_mod_self_left, Nat.mod_eq_of_lt hfit]

private theorem sub_below {m q x S y r c : Nat} (hr : r < m * q)
    (h : r + y = x + m * S + m * q * c) (hy : y ≤ x) (hx : x < m) :
    r % m = x - y ∧ c = 0 := by
  have hc : c = 0 := by
    by_contra hn
    have : m * q ≤ m * q * c := Nat.le_mul_of_pos_right _ (Nat.pos_of_ne_zero hn)
    omega
  rw [hc, Nat.mul_zero, Nat.add_zero] at h
  refine ⟨?_, hc⟩
  rw [show r = x - y + m * S from by omega, Nat.add_mul_mod_self_left,
    Nat.mod_eq_of_lt (by omega)]

private theorem add_digit_lt {x n d : Nat} (hx : x < 2 ^ (64 * d)) (hn : n < 2 ^ 64) :
    x + n < 2 ^ (64 * (d + 1)) := by
  have hpos := Nat.two_pow_pos (64 * d)
  rw [pow_succ_mul]
  rcases Nat.eq_zero_or_pos d with hd | hd
  · rw [hd] at hx ⊢
    omega
  · have hge : 2 ^ 64 ≤ 2 ^ (64 * d) := Nat.pow_le_pow_right (by decide) (by omega)
    omega

private theorem add_lt_pow {x y d e : Nat} (hx : x < 2 ^ (64 * d)) (hy : y < 2 ^ (64 * e)) :
    x + y < 2 ^ (64 * (max d e + 1)) := by
  have hd : 2 ^ (64 * d) ≤ 2 ^ (64 * max d e) :=
    Nat.pow_le_pow_right (by decide) (Nat.mul_le_mul_left _ (Nat.le_max_left _ _))
  have he : 2 ^ (64 * e) ≤ 2 ^ (64 * max d e) :=
    Nat.pow_le_pow_right (by decide) (Nat.mul_le_mul_left _ (Nat.le_max_right _ _))
  rw [pow_succ_mul]
  omega

theorem initDigits_stale {b : Bn} (hb : b.WF) (off : Nat) {k : Nat} (hk : b.digits ≤ k)
    (hk' : k ≤ max b.digits (min off b.count)) :
    ∃ S, Limbs.val ((b.bnInitDigits off).num.toList.take b.count) = b.value + 2 ^ (64 * k) * S := by
  have hcount := hb.count_le
  have hkc : k ≤ b.count := by
    have := hb.digits_le
    omega
  refine ⟨Limbs.val (((b.bnInitDigits off).num.toList.take b.count).drop k), ?_⟩
  rw [val_take_drop k ((b.bnInitDigits off).num.toList.take b.count)
    (by rw [List.length_take, NumArray.length_toList]; omega), List.take_take,
    Nat.min_eq_left hkc, bnInitDigits_val_take hb.digits_le hcount off hk hk']

theorem length_take_count {b : Bn} (hc : b.count ≤ 32) (b' : Bn) :
    (b'.num.toList.take b.count).length = b.count := by
  rw [List.length_take, NumArray.length_toList]
  omega

private theorem add_refines_aux {b : Bn} (hb : b.WF) {digits y : Nat} {l : List Digit} {c : Digit}
    (hdig : b.digits < digits) (hl : l.length = b.count)
    (h : Limbs.val l + 2 ^ (64 * b.count) * c.toNat =
      Limbs.val ((b.bnInitDigits digits).num.toList.take b.count) + y)
    (hfit : digits < b.count → b.value + y < 2 ^ (64 * digits)) :
    (((b.bnInitDigits digits).write l).bnUpdateDigits digits).WF ∧
    (((b.bnInitDigits digits).write l).bnUpdateDigits digits).abs =
      ⟨b.count, (b.value + y) % 2 ^ (64 * b.count)⟩ ∧
    c = BitVec.ofNat 64 ((b.value + y) / 2 ^ (64 * b.count)) := by
  have hlt : Limbs.val l < 2 ^ (64 * b.count) := hl ▸ val_lt l
  have hspan : (b.bnInitDigits digits).updateSpan digits = min digits b.count := by
    rw [updateSpan, bnInitDigits_count, bnInitDigits_digits]
    have := hb.digits_le
    split <;> omega
  rcases write_update (b := b.bnInitDigits digits) (l := l) (k := digits)
    (by simpa using hb.digits_le) (by simpa using hb.count_le) (by simp [hl])
    (by rw [hspan, hl]; exact Nat.min_le_right _ _) with ⟨hwf, habs⟩
  rw [hspan, bnInitDigits_count] at habs
  refine ⟨hwf, ?_⟩
  rw [habs]
  -- the digits in use, or the stale ones between them and the capacity as well
  by_cases hfull : b.count ≤ digits
  · have hval := bnInitDigits_val_take hb.digits_le hb.count_le digits hb.digits_le
      (le_max_of_le_right (by omega) : b.count ≤ max b.digits (min digits b.count))
    rw [hval] at h
    rw [Nat.min_eq_right hfull, ← h, Nat.add_mul_mod_self_left,
      Nat.add_mul_div_left _ _ (Nat.two_pow_pos _), Nat.div_eq_of_lt hlt, Nat.zero_add]
    refine ⟨rfl, ?_⟩
    apply BitVec.eq_of_toNat_eq
    rw [BitVec.toNat_ofNat, Nat.mod_eq_of_lt c.isLt]
  · have hdc : digits < b.count := by omega
    rcases initDigits_stale hb digits hdig.le (le_max_of_le_right (by omega)) with ⟨S, hS⟩
    have hpow : 2 ^ (64 * b.count) = 2 ^ (64 * digits) * 2 ^ (64 * (b.count - digits)) := by
      rw [← Nat.pow_add, ← Nat.mul_add, Nat.add_sub_cancel' hdc.le]
    have hVlt : b.value + 2 ^ (64 * digits) * S <
        2 ^ (64 * digits) * 2 ^ (64 * (b.count - digits)) := by
      rw [← hS, ← hpow]
      have := val_lt ((b.bnInitDigits digits).num.toList.take b.count)
      rwa [length_take_count hb.count_le] at this
    rw [hS, hpow] at h
    rcases add_below hVlt h (hfit hdc) with ⟨hlow, hc⟩
    have hsmall : b.value + y < 2 ^ (64 * b.count) :=
      (hfit hdc).trans_le (Nat.pow_le_pow_right (by decide) (by omega))
    rw [Nat.min_eq_left hdc.le, hlow, Nat.mod_eq_of_lt hsmall, Nat.div_eq_of_lt hsmall]
    exact ⟨rfl, BitVec.eq_of_toNat_eq (by simpa using hc)⟩

/-- Subtracting within the digits in use, or over the whole initialised capacity: the shape shared
by `bn_sub` and `bn_sub_digit`. -/
private theorem sub_refines_aux {b : Bn} (hb : b.WF) {digits y : Nat} {l : List Digit} {c : Digit}
    (hdig : digits = b.count ∨ (digits = b.digits ∧ y ≤ b.value)) (hl : l.length = b.count)
    (hy : y < 2 ^ (64 * b.count))
    (h : Limbs.val l + y =
      Limbs.val ((b.bnInitDigits digits).num.toList.take b.count) +
        2 ^ (64 * b.count) * c.toNat) :
    (((b.bnInitDigits digits).write l).bnUpdateDigits digits).WF ∧
    (((b.bnInitDigits digits).write l).bnUpdateDigits digits).abs =
      ⟨b.count, (b.value + 2 ^ (64 * b.count) - y) % 2 ^ (64 * b.count)⟩ ∧
    c = if b.value < y then 1 else 0 := by
  have hlt : Limbs.val l < 2 ^ (64 * b.count) := hl ▸ val_lt l
  have hdc := hb.digits_le
  have hcap := hb.value_lt_cap
  have hspan : (b.bnInitDigits digits).updateSpan digits = digits := by
    rw [updateSpan, bnInitDigits_count, bnInitDigits_digits]
    split <;> omega
  rcases write_update (b := b.bnInitDigits digits) (l := l) (k := digits)
    (by simpa using hb.digits_le) (by simpa using hb.count_le) (by simp [hl])
    (by rw [hspan, hl]; omega) with ⟨hwf, habs⟩
  rw [hspan, bnInitDigits_count] at habs
  refine ⟨hwf, ?_⟩
  rw [habs]
  -- over the whole capacity the borrow comes out; within the digits in use there is none
  rcases hdig with hfull | ⟨hd, hle⟩
  · have hval := bnInitDigits_val_take hb.digits_le hb.count_le digits hb.digits_le
      (le_max_of_le_right (by omega) : b.count ≤ max b.digits (min digits b.count))
    rw [hval] at h
    rw [hfull]
    by_cases hlty : b.value < y
    · have hc1 : c.toNat = 1 := by
        rcases Nat.lt_or_ge c.toNat 1 with h0 | h0
        · rw [show c.toNat = 0 from by omega] at h
          omega
        · rcases Nat.lt_or_ge c.toNat 2 with h1 | h1
          · omega
          · have := Nat.mul_le_mul_left (2 ^ (64 * b.count)) h1
            omega
      rw [hc1, Nat.mul_one] at h
      rw [if_pos hlty, show b.value + 2 ^ (64 * b.count) - y = Limbs.val l from by omega]
      exact ⟨rfl, BitVec.eq_of_toNat_eq hc1⟩
    · have hc0 : c.toNat = 0 := by
        by_contra hn
        have := Nat.le_mul_of_pos_right (2 ^ (64 * b.count)) (Nat.pos_of_ne_zero hn)
        omega
      rw [hc0, Nat.mul_zero, Nat.add_zero] at h
      rw [if_neg hlty, show b.value + 2 ^ (64 * b.count) - y =
        Limbs.val l + 2 ^ (64 * b.count) from by omega, Nat.add_mod_right]
      exact ⟨rfl, BitVec.eq_of_toNat_eq hc0⟩
  · rcases initDigits_stale hb digits (k := digits) (by omega) (by omega) with ⟨S, hS⟩
    have hpow : 2 ^ (64 * b.count) = 2 ^ (64 * digits) * 2 ^ (64 * (b.count - digits)) := by
      rw [← Nat.pow_add, ← Nat.mul_add, Nat.add_sub_cancel' (by omega)]
    have hx : b.value < 2 ^ (64 * digits) := hd ▸ hb.value_lt
    rw [hS, hpow] at h
    rcases sub_below (hpow ▸ hlt) h hle hx with ⟨hlow, hc⟩
    rw [hlow, if_neg (by omega), show b.value + 2 ^ (64 * b.count) - y =
      b.value - y + 2 ^ (64 * b.count) from by omega, Nat.add_mod_right,
      Nat.mod_eq_of_lt (by omega)]
    exact ⟨rfl, BitVec.eq_of_toNat_eq hc⟩

theorem bnAddDigit_refines (n : Digit) : Refines (bnAddDigit n) (Num.bnAddDigit n) := by
  intro b hb
  rw [bnAddDigit, Num.bnAddDigit, abs_count, abs_val, Num.cap, abs_count]
  by_cases hn : n = 0
  · rw [if_pos hn, if_pos hn]
    exact ⟨rfl, hb⟩
  · rw [if_neg hn, if_neg hn]
    have hnlt := n.isLt
    have hvlt := hb.value_lt
    by_cases h0 : b.count = 0
    · -- no digit to add to: nothing is written and the carry is 0
      have hd0 : b.digits = 0 := by
        have := hb.digits_le
        omega
      have hwf := (bnInitDigits_wf hb (b.digits + 1))
      rw [if_pos h0]
      simp only [bnInitDigits_count, h0, List.take_zero, bnDigitsAddDigit]
      rcases write_update (b := b.bnInitDigits (b.digits + 1)) (l := []) (k := b.digits + 1)
        hwf.1.digits_le hwf.1.count_le (Nat.zero_le _)
        (by rw [updateSpan, bnInitDigits_count, h0, if_pos (Nat.zero_le _)]; exact Nat.zero_le _)
        with ⟨hwf', habs⟩
      refine ⟨?_, hwf'⟩
      have hv0 : b.value = 0 := hb.digits_eq_zero.mp hd0
      simp only [mapRes_ok, habs, id]
      simp [abs, hv0]
    · rw [if_neg h0]
      simp only [bnInitDigits_count]
      have hlen := length_take_count hb.count_le (b.bnInitDigits (b.digits + 1))
      have hadd := bnDigitsAddDigit_val
        ((b.bnInitDigits (b.digits + 1)).num.toList.take b.count) n
        (by intro h; rw [h] at hlen; exact h0 hlen.symm)
      rw [hlen] at hadd
      rcases add_refines_aux hb (Nat.lt_succ_self _) (by rw [length_bnDigitsAddDigit, hlen]) hadd
        (fun _ => add_digit_lt hvlt hnlt) with ⟨hwf, habs, hc⟩
      refine ⟨?_, hwf⟩
      simp only [mapRes_ok, habs, hc, id]

theorem bnAdd_refines {n : Arg Bn} (hn : n.WF) : Refines (bnAdd n) (Num.bnAdd (n.map abs)) := by
  intro b hb
  have hy := hn.get hb
  simp only [bnAdd, Num.bnAdd, Arg.get_map, abs_count, abs_val, Num.cap, ← hy.digits_eq,
    bnInitDigits_count]
  generalize n.get b = y at hy ⊢
  have hlen := length_take_count hb.count_le (b.bnInitDigits (max b.digits y.digits + 1))
  have hylen := hy.length_sig
  by_cases h : b.count < y.digits
  · rw [bnDigitsAdd_error (by omega), if_pos h]
    have hwf := bnInitDigits_wf hb (max b.digits y.digits + 1)
    exact ⟨by rw [mapRes_error, hwf.2], hwf.1⟩
  · rcases bnDigitsAdd_ok (a := (b.bnInitDigits (max b.digits y.digits + 1)).num.toList.take
      b.count) (b := y.sig) (by omega) with ⟨r, hr, hrl, hrv⟩
    rw [hlen] at hrl hrv
    rcases add_refines_aux hb (by omega) hrl hrv (fun _ => add_lt_pow hb.value_lt hy.value_lt)
      with ⟨hwf, habs, hc⟩
    rw [hr, if_neg h]
    refine ⟨?_, hwf⟩
    simp only [mapRes_ok, habs, hc, id]
    rfl

theorem bnSubDigit_refines (n : Digit) : Refines (bnSubDigit n) (Num.bnSubDigit n) := by
  intro b hb
  rw [bnSubDigit, Num.bnSubDigit, abs_count, abs_val, Num.cap, abs_count]
  by_cases hn : n = 0
  · rw [if_pos hn, if_pos hn]
    exact ⟨rfl, hb⟩
  · rw [if_neg hn, if_neg hn]
    have hdc := hb.digits_le
    by_cases h0 : b.count = 0
    · have hd0 : b.digits = 0 := by omega
      have hwf := (bnInitDigits_wf hb b.count)
      rw [if_pos h0]
      simp only [if_pos (Or.inl hd0 : b.digits = 0 ∨ b.digits = 1 ∧ b.dig 0 < n),
        bnInitDigits_count, h0, List.take_zero, bnDigitsSubDigit]
      rw [h0] at hwf
      rcases write_update (b := b.bnInitDigits 0) (l := []) (k := 0)
        hwf.1.digits_le hwf.1.count_le (Nat.zero_le _)
        (by rw [updateSpan, bnInitDigits_count, h0, if_pos le_rfl]; exact Nat.zero_le _)
        with ⟨hwf', habs⟩
      refine ⟨?_, hwf'⟩
      have hv0 : b.value = 0 := hb.digits_eq_zero.mp hd0
      simp only [mapRes_ok, habs, id]
      simp [abs, hv0]
    · rw [if_neg h0]
      simp only [bnInitDigits_count]
      have hnlt : n.toNat < 2 ^ (64 * b.count) :=
        n.isLt.trans_le (Nat.pow_le_pow_right (by decide) (by omega))
      -- with two digits, or one that is not below `n`, the number is not below `n`
      have hdig : (if b.digits = 0 ∨ (b.digits = 1 ∧ b.dig 0 < n) then b.count else b.digits) =
            b.count ∨
          ((if b.digits = 0 ∨ (b.digits = 1 ∧ b.dig 0 < n) then b.count else b.digits) =
            b.digits ∧ n.toNat ≤ b.value) := by
        by_cases hcond : b.digits = 0 ∨ (b.digits = 1 ∧ b.dig 0 < n)
        · rw [if_pos hcond]
          exact Or.inl rfl
        · rw [if_neg hcond]
          refine Or.inr ⟨rfl, ?_⟩
          by_cases h1 : b.digits = 1
          · have hval : b.value = (b.dig 0).toNat := by
              rw [value, sig_concat (by omega) (by omega), h1]
              simp
            have hge : n ≤ b.dig 0 := BitVec.not_lt.mp (fun h => hcond (Or.inr ⟨h1, h⟩))
            rw [hval]
            exact hge
          · have hge : 2 ^ (64 * 1) ≤ b.value :=
              (lt_limbCount_iff (by decide) _ _).mp (by rw [← hb.digits_eq]; omega)
            have := n.isLt
            omega
      generalize (if b.digits = 0 ∨ (b.digits = 1 ∧ b.dig 0 < n) then b.count else b.digits) =
        digits at hdig
      have hlen := length_take_count hb.count_le (b.bnInitDigits digits)
      have hsub := bnDigitsSubDigit_val ((b.bnInitDigits digits).num.toList.take b.count) n
        (by intro h; rw [h] at hlen; exact h0 hlen.symm)
      rw [hlen] at hsub
      rcases sub_refines_aux hb hdig (by rw [length_bnDigitsSubDigit, hlen]) hnlt hsub
        with ⟨hwf, habs, hc⟩
      refine ⟨?_, hwf⟩
      simp only [mapRes_ok, habs, hc, id]

private theorem value_le_of_top {b y : Bn} (hb : b.WF) (hd : b.digits = y.digits)
    (h0 : b.digits ≠ 0) (htop : y.dig (b.digits - 1) < b.dig (b.digits - 1)) :
    y.value ≤ b.value := by
  have hb32 := hb.digits_le_32
  have hlow := val_lt (y.num.toList.take (y.digits - 1))
  rw [value, value, sig_concat (by omega) (by omega), sig_concat (b := b) (by omega) hb32,
    val_append, val_append]
  rw [List.length_take, NumArray.length_toList, Nat.min_eq_left (by omega)] at hlow ⊢
  rw [List.length_take, NumArray.length_toList, Nat.min_eq_left (by omega), ← hd]
  rw [← hd] at hlow
  have hlt : (y.dig (b.digits - 1)).toNat + 1 ≤ (b.dig (b.digits - 1)).toNat := htop
  have hmul := Nat.mul_le_mul_left (2 ^ (64 * (b.digits - 1))) hlt
  rw [Nat.mul_add, Nat.mul_one] at hmul
  simp only [val_cons, val_nil, Nat.mul_zero, Nat.add_zero]
  omega

private theorem bnSubInt_refines {y : Bn} (hy : y.WF) :
    Refines (bnSubInt y) (Num.bnSub (.val y.abs)) := by
  intro b hb
  simp only [bnSubInt, Num.bnSub, abs_count, abs_val, Num.cap, ← hy.digits_eq,
    bnInitDigits_count]
  have hylen := hy.length_sig
  have hdc := hb.digits_le
  have hdig : ∀ digits, digits = (if b.digits < y.digits ∨ (b.digits = y.digits ∧
        (b.digits = 0 ∨ b.dig (b.digits - 1) ≤ y.dig (b.digits - 1))) then b.count
        else b.digits) →
      digits = b.count ∨ (digits = b.digits ∧ y.value ≤ b.value) := by
    rintro digits rfl
    split
    · exact Or.inl rfl
    · rename_i hcond
      refine Or.inr ⟨rfl, ?_⟩
      by_cases hd : b.digits = y.digits
      · by_cases h0 : b.digits = 0
        · exact absurd (Or.inr ⟨hd, Or.inl h0⟩) hcond
        · have htop : y.dig (b.digits - 1) < b.dig (b.digits - 1) :=
            BitVec.not_le.mp (fun h => hcond (Or.inr ⟨hd, Or.inr h⟩))
          exact value_le_of_top hb hd h0 htop
      · have hge : 2 ^ (64 * y.digits) ≤ b.value :=
          (lt_limbCount_iff (by decide) _ _).mp (by rw [← hb.digits_eq]; omega)
        have := hy.value_lt
        omega
  generalize hgen : (if b.digits < y.digits ∨ (b.digits = y.digits ∧
        (b.digits = 0 ∨ b.dig (b.digits - 1) ≤ y.dig (b.digits - 1))) then b.count
        else b.digits) = digits
  have hdig' := hdig digits hgen.symm
  have hlen := length_take_count hb.count_le (b.bnInitDigits digits)
  by_cases h : b.count < y.digits
  · rw [bnDigitsSub_error (by omega), if_pos h]
    have hwf := bnInitDigits_wf hb digits
    exact ⟨by rw [mapRes_error, hwf.2], hwf.1⟩
  · rcases bnDigitsSub_ok (a := (b.bnInitDigits digits).num.toList.take b.count) (b := y.sig)
      (by omega) with ⟨r, hr, hrl, hrv⟩
    rw [hlen] at hrl hrv
    have hylt : y.value < 2 ^ (64 * b.count) :=
      hy.value_lt.trans_le (Nat.pow_le_pow_right (by decide) (by omega))
    rcases sub_refines_aux hb hdig' hrl hylt hrv with ⟨hwf, habs, hc⟩
    rw [hr, if_neg h]
    refine ⟨?_, hwf⟩
    simp only [mapRes_ok, habs, hc, id]
    rfl

theorem bnSub_refines {n : Arg Bn} (hn : n.WF) : Refines (bnSub n) (Num.bnSub (n.map abs)) := by
  intro b hb
  cases n with
  | self =>
    have hz := wf_zero_digits (b := b) hb.count_le
    rcases bnSubInt_refines hz _ hz with ⟨h, hwf⟩
    refine ⟨h.trans ?_, hwf⟩
    simp [Num.bnSub, abs_zero_digits, Num.cap]
  | val y => exact bnSubInt_refines (hn y rfl) b hb

/-! ## Shifts -/

theorem bnLShift_refines (bits : Nat) : Refines (bnLShift bits) (Num.bnLShift bits) := by
  intro b hb
  rw [bnLShift, Num.bnLShift, abs_val, abs_count, Num.cap, abs_count]
  have hdc := hb.digits_le
  have hc32 := hb.count_le
  by_cases h0 : b.digits = 0
  · rw [if_pos h0, if_pos (hb.digits_eq_zero.mp h0)]
    exact ⟨rfl, hb⟩
  · rw [if_neg h0, if_neg (fun h => h0 (hb.digits_eq_zero.mpr h))]
    simp only
    generalize hk : min b.count (b.digits + 1 + bits / 64) = k
    have hinit := bnInitDigits_wf hb k
    have hlen : ((b.bnInitDigits k).num.toList.take k).length = k := by
      rw [List.length_take, NumArray.length_toList]
      omega
    have hval : Limbs.val ((b.bnInitDigits k).num.toList.take k) = b.value :=
      bnInitDigits_val_take hdc hc32 k (by omega) (by omega)
    by_cases hbits : 64 * b.count + 8 ≤ bits
    · rw [bnDigitsLShift_undef (by omega) (by rw [hlen]; omega), if_pos hbits]
      exact ⟨by rw [mapRes_error, hinit.2], hinit.1⟩
    · rcases bnDigitsLShift_ok (a := (b.bnInitDigits k).num.toList.take k) bits
        (by rw [hlen]; omega) with ⟨l, hl, hll, hlv⟩
      rw [hlen] at hll hlv
      have hspan : (b.bnInitDigits k).updateSpan k = k := by
        rw [updateSpan, bnInitDigits_count, bnInitDigits_digits]
        split <;> omega
      rcases write_update (b := b.bnInitDigits k) (l := l) (k := k) hinit.1.digits_le
        hinit.1.count_le (by rw [bnInitDigits_count]; omega) (by omega) with ⟨hwf, habs⟩
      rw [hl, if_neg hbits]
      refine ⟨?_, hwf⟩
      have hmod : b.value * 2 ^ bits % 2 ^ (64 * k) = b.value * 2 ^ bits % 2 ^ (64 * b.count) := by
        by_cases hfull : k = b.count
        · rw [hfull]
        · -- below the capacity the shifted number has room
          have hfit : b.value * 2 ^ bits < 2 ^ (64 * k) := by
            calc b.value * 2 ^ bits < 2 ^ (64 * b.digits) * 2 ^ bits :=
                  Nat.mul_lt_mul_of_pos_right hb.value_lt (Nat.two_pow_pos _)
              _ = 2 ^ (64 * b.digits + bits) := by rw [Nat.pow_add]
              _ ≤ 2 ^ (64 * k) := Nat.pow_le_pow_right (by decide) (by omega)
          rw [Nat.mod_eq_of_lt hfit, Nat.mod_eq_of_lt
            (hfit.trans_le (Nat.pow_le_pow_right (by decide) (by omega)))]
      rw [mapRes_ok, habs, hspan, hlv, hval, Nat.mod_mod, hmod, bnInitDigits_count]

theorem bnRShift_refines (bits : Nat) : Refines (bnRShift bits) (Num.bnRShift bits) := by
  intro b hb
  rw [bnRShift, Num.bnRShift, abs_val, ← hb.digits_eq]
  have hdc := hb.digits_le
  have hlen := hb.length_sig
  by_cases h0 : b.digits = 0
  · rw [if_pos h0, if_pos (hb.digits_eq_zero.mp h0)]
    exact ⟨rfl, hb⟩
  · rw [if_neg h0, if_neg (fun h => h0 (hb.digits_eq_zero.mpr h))]
    by_cases hbits : 64 * b.digits < bits
    · rw [bnDigitsRShift_undef (by omega) (by omega), if_pos hbits]
      exact ⟨rfl, hb⟩
    · rcases bnDigitsRShift_ok (a := b.sig) bits (by omega) with ⟨l, hl, hll, hlv⟩
      have hspan : b.updateSpan b.digits = b.digits := by
        rw [updateSpan]
        split <;> omega
      rcases write_update (b := b) (l := l) (k := b.digits) hdc hb.count_le (by omega)
        (by omega) with ⟨hwf, habs⟩
      rw [hl, if_neg hbits]
      refine ⟨?_, hwf⟩
      have hfit : b.value / 2 ^ bits < 2 ^ (64 * b.digits) :=
        (Nat.div_le_self _ _).trans_lt hb.value_lt
      simp only [mapRes_ok, habs, hspan, hlv, id]
      rw [← value, Nat.mod_eq_of_lt hfit]
      rfl

/-! ## Imports -/

private theorem write_update_low {b : Bn} (hb : b.WF) {l : List Digit} (hl : l.length ≤ b.count) :
    ((b.write l).bnUpdateDigits l.length).WF ∧
    ((b.write l).bnUpdateDigits l.length).abs =
      ⟨b.count, Limbs.val l + 2 ^ (64 * l.length) * (b.value / 2 ^ (64 * l.length))⟩ := by
  have hdc := hb.digits_le
  have hc32 := hb.count_le
  rcases bnUpdateDigits_spec (b := b.write l) hdc hc32 l.length with ⟨hwf, habs⟩
  refine ⟨hwf, ?_⟩
  rw [habs, write_count, updateSpan, write_count, write_digits, write_toList b (by omega)]
  have hhigh : ∀ k, b.digits ≤ k → k ≤ b.count →
      Limbs.val ((b.num.toList.drop l.length).take (b.digits - l.length)) =
        b.value / 2 ^ (64 * l.length) := by
    intro k _ _
    rw [value, sig, ← val_drop, List.drop_take]
  by_cases hfull : b.count ≤ l.length
  · have hzero : b.value / 2 ^ (64 * l.length) = 0 := Nat.div_eq_of_lt
      (hb.value_lt.trans_le (Nat.pow_le_pow_right (by decide) (by omega)))
    rw [if_pos hfull, hzero, Nat.mul_zero, Nat.add_zero, List.take_append_of_le_length (by omega),
      List.take_of_length_le (by omega)]
  · rw [if_neg hfull, List.take_append, List.take_of_length_le (by omega), val_append,
      show max l.length b.digits - l.length = b.digits - l.length from by omega,
      hhigh b.digits le_rfl hdc]

private theorem val_ofBytes_pad (buf : List (BitVec 8)) (k : Nat) (hk : buf.length ≤ 8 * k) :
    (ofBytes (buf ++ List.replicate (8 * k - buf.length) 0)).length = k ∧
    Limbs.val (ofBytes (buf ++ List.replicate (8 * k - buf.length) 0)) = Limbs.val buf := by
  have hlen : (buf ++ List.replicate (8 * k - buf.length) 0).length = 8 * k := by
    rw [List.length_append, List.length_replicate]
    omega
  constructor
  · rw [length_ofBytes, hlen, Nat.mul_div_cancel_left _ (by decide)]
  · rw [val_ofBytes (by rw [hlen]; exact Nat.dvd_mul_right _ _), val_append, val_replicate_zero,
      Nat.mul_zero, Nat.add_zero]

theorem bnImportLeBin_refines (buf : List (BitVec 8)) :
    Refines (bnImportLeBin buf) (Num.bnImportLeBin buf) := by
  intro b hb
  rw [bnImportLeBin, Num.bnImportLeBin, abs_count]
  by_cases h0 : b.count = 0 ∨ buf.length = 0
  · rw [if_pos h0, if_pos h0]
    exact ⟨rfl, hb⟩
  · rw [if_neg h0, if_neg h0]
    by_cases hbig : b.count * 8 < buf.length
    · rw [if_pos hbig, if_pos hbig]
      exact ⟨rfl, hb⟩
    · rw [if_neg hbig, if_neg hbig]
      rcases val_ofBytes_pad buf ((buf.length + 7) / 8) (by omega) with ⟨hlen, hval⟩
      simp only
      generalize ofBytes (buf ++ List.replicate (8 * ((buf.length + 7) / 8) - buf.length) 0) = l
        at hlen hval
      rcases write_update_low hb (l := l) (by omega) with ⟨hwf, habs⟩
      rw [hlen] at hwf habs
      exact ⟨by rw [mapRes_ok, habs, hval]; rfl, hwf⟩

theorem bnImportBeBin_refines (buf : List (BitVec 8)) :
    Refines (bnImportBeBin buf) (Num.bnImportBeBin buf) := bnImportLeBin_refines buf.reverse

end Bn

theorem length_hexBytes (join : BitVec 8 → BitVec 8 → BitVec 8) (first : Option (BitVec 8))
    (cs : List (BitVec 8)) :
    2 * (hexBytes join first cs).length ≤ cs.length + (if first.isSome then 1 else 0) := by
  fun_induction hexBytes join first cs with
  | case1 => simp
  | case2 first c cs hd ih =>
    rw [List.length_cons]
    omega
  | case3 c cs d hd ih =>
    simp only [Option.isSome_some, if_true, Option.isSome_none, Bool.false_eq_true, if_false,
      List.length_cons] at ih ⊢
    omega
  | case4 c cs d h hd ih =>
    simp only [Option.isSome_some, if_true, Option.isSome_none, Bool.false_eq_true, if_false,
      List.length_cons] at ih ⊢
    omega

namespace Bn

theorem importHexBytes_refines {bufSize : Nat} {bytes : List (BitVec 8)}
    (hle : 2 * bytes.length ≤ bufSize) :
    Refines (importHexBytes bufSize bytes) (Num.importHexBytes bufSize bytes) := by
  intro b hb
  have hinit := bnInitDigits_wf hb b.count
  rw [Num.importHexBytes, abs_count]
  simp only [importHexBytes, bnInitDigits_count]
  by_cases h0 : b.count = 0 ∨ bufSize = 0
  · rw [if_pos h0, if_pos h0]
    exact ⟨by rw [mapRes_error, hinit.2], hinit.1⟩
  · rw [if_neg h0, if_neg h0]
    by_cases hbig : b.count * 8 < bufSize / 2
    · rw [if_pos hbig, if_pos hbig]
      exact ⟨by rw [mapRes_error, hinit.2], hinit.1⟩
    · rw [if_neg hbig, if_neg hbig, if_neg (by omega)]
      have hc32 := hb.count_le
      rcases val_ofBytes_pad bytes b.count (by omega) with ⟨hlen, hval⟩
      rw [Nat.mul_comm 8 b.count] at hlen hval
      generalize ofBytes (bytes ++ List.replicate (b.count * 8 - bytes.length) 0) = l
        at hlen hval ⊢
      rcases wf_of_calcDigits (b := (b.bnInitDigits b.count).write l) (k := b.count)
        (by simpa using hc32) (by simp) with ⟨hwf, hv⟩
      have htake : ((b.bnInitDigits b.count).write l).num.toList.take b.count = l := by
        rw [take_write _ (by omega) (by omega), List.take_of_length_le (by omega)]
      rw [write_count, bnInitDigits_count] at *
      refine ⟨?_, hwf⟩
      rw [mapRes_ok, abs, hv, htake, hval]

theorem bnImportLeHex_refines (buf : List (BitVec 8)) :
    Refines (bnImportLeHex buf) (Num.bnImportLeHex buf) :=
  importHexBytes_refines (by simpa using length_hexBytes _ none buf)

theorem bnImportBeHex_refines (buf : List (BitVec 8)) :
    Refines (bnImportBeHex buf) (Num.bnImportBeHex buf) :=
  importHexBytes_refines (by simpa using length_hexBytes _ none buf.reverse)

/-! ## Single bits and bitwise operations -/

private theorem getLsbD_one_shiftLeft {k i : Nat} (hi : i < 64) :
    ((1 : Digit) <<< k).getLsbD i = decide (k = i) := by
  rw [BitVec.getLsbD_shiftLeft, show (1 : Digit) = 1#64 from rfl, BitVec.getLsbD_one]
  by_cases h : k = i
  · simp [h, hi]
  · simp only [h, decide_false, Bool.and_eq_false_iff, Bool.not_eq_false', decide_eq_false_iff_not,
      decide_eq_true_eq]
    omega

private theorem testBit_set (l : List Digit) {idx : Nat} (hidx : idx < l.length) (d : Digit)
    (j : Nat) : (Limbs.val (l.set idx d)).testBit j =
      if j / 64 = idx then d.getLsbD (j % 64) else (Limbs.val l).testBit j := by
  rw [testBit_val (by decide), testBit_val (by decide), List.getD_eq_getElem?_getD,
    List.getElem?_set]
  by_cases h : idx = j / 64
  · rw [if_pos h, if_pos (h ▸ hidx), if_pos h.symm]
    rfl
  · rw [if_neg h, if_neg (fun h' => h h'.symm), ← List.getD_eq_getElem?_getD]

theorem bnBitSet_refines (bit : Nat) (v : Bool) : Refines (bnBitSet bit v) (Num.bnBitSet bit v) := by
  intro b hb
  rw [bnBitSet, Num.bnBitSet, abs_count, abs_val]
  have hdc := hb.digits_le
  have hc32 := hb.count_le
  by_cases h : b.count ≤ bit / 64
  · simp only [if_pos h]
    exact ⟨rfl, hb⟩
  · simp only [if_neg h]
    generalize hb1 : b.bnInitDigits (bit / 64 + 1) = b1
    have hcount : b1.count = b.count := by rw [← hb1, bnInitDigits_count]
    have hdigits : b1.digits = b.digits := by rw [← hb1, bnInitDigits_digits]
    have hval : Limbs.val (b1.num.toList.take (max (bit / 64 + 1) b.digits)) = b.value := by
      rw [← hb1]
      exact bnInitDigits_val_take hdc hc32 _ (by omega) (by omega)
    generalize hd : (if v = true then b1.dig (bit / 64) ||| (1 : Digit) <<< (bit % 64)
      else b1.dig (bit / 64) &&& ~~~((1 : Digit) <<< (bit % 64))) = d
    rcases bnUpdateDigits_spec (b := b1.setDig (bit / 64) d)
      (by show b1.digits ≤ b1.count; omega) (by show b1.count ≤ 32; omega) (bit / 64 + 1)
      with ⟨hwf, habs⟩
    refine ⟨?_, hwf⟩
    -- the digits that are looked at again are those of the number and that of the bit
    have hspan : (b1.setDig (bit / 64) d).updateSpan (bit / 64 + 1) =
        max (bit / 64 + 1) b.digits := by
      show (if b1.count ≤ bit / 64 + 1 then b1.count else max (bit / 64 + 1) b1.digits) = _
      split <;> omega
    have hlen : bit / 64 < (b1.num.toList.take (max (bit / 64 + 1) b.digits)).length := by
      rw [List.length_take, NumArray.length_toList]
      omega
    -- the digit before the bit is changed
    have hold : ∀ j, j / 64 = bit / 64 → (b1.dig (bit / 64)).getLsbD (j % 64) =
        b.value.testBit j := by
      intro j hj
      rw [← hval, testBit_val (by decide), hj, dig, List.getD_eq_getElem?_getD,
        List.getD_eq_getElem?_getD, List.getElem?_take, if_pos (by omega)]
    rw [mapRes_ok, habs, hspan]
    show EStateM.Result.ok () (Num.mk b1.count (Limbs.val
      (List.take (max (bit / 64 + 1) b.digits) (b1.num.toList.set (bit / 64) d)))) = _
    rw [List.take_set, hcount]
    congr 2
    -- bit by bit: inside the digit of the bit and outside of it
    apply Nat.eq_of_testBit_eq
    intro j
    rw [testBit_set _ hlen, hval]
    cases v with
    | true =>
      simp only [if_true] at hd ⊢
      rw [Nat.testBit_or, Nat.testBit_two_pow]
      by_cases hj : j / 64 = bit / 64
      · rw [if_pos hj, ← hd, BitVec.getLsbD_or, hold j hj,
          getLsbD_one_shiftLeft (Nat.mod_lt _ (by decide))]
        congr 1
        rw [decide_eq_decide]
        omega
      · rw [if_neg hj, show decide (bit = j) = false from by rw [decide_eq_false_iff_not]; omega,
          Bool.or_false]
    | false =>
      simp only [Bool.false_eq_true, if_false] at hd ⊢
      by_cases hj : j / 64 = bit / 64
      · rw [if_pos hj, ← hd, BitVec.getLsbD_and, BitVec.getLsbD_not, hold j hj,
          getLsbD_one_shiftLeft (Nat.mod_lt _ (by decide)),
          decide_eq_true (Nat.mod_lt j (by decide)), Bool.true_and]
        by_cases hjb : bit = j
        · rw [hjb, decide_eq_true rfl, Bool.not_true, Bool.and_false]
          split
          · rename_i hset
            rw [Nat.testBit_xor, Nat.testBit_two_pow_self, hset]
            rfl
          · rename_i hset
            simpa using hset
        · rw [decide_eq_false (by omega), Bool.not_false, Bool.and_true]
          split
          · rw [Nat.testBit_xor, Nat.testBit_two_pow, decide_eq_false hjb, Bool.xor_false]
          · rfl
      · rw [if_neg hj]
        split
        · rw [Nat.testBit_xor, Nat.testBit_two_pow,
            decide_eq_false (fun h' => hj (by rw [h'])), Bool.xor_false]
        · rfl

theorem bnAnd_refines {n : Arg Bn} (hn : n.WF) : Refines (bnAnd n) (Num.bnAnd (n.map abs)) := by
  intro b hb
  have hy := hn.get hb
  simp only [bnAnd, Num.bnAnd, Arg.get_map, abs_val, ← hy.digits_eq, ← hb.digits_eq]
  generalize n.get b = y at hy ⊢
  have hdc := hb.digits_le
  have hc32 := hb.count_le
  have hy32 := hy.digits_le_32
  generalize hd : min b.digits y.digits = d
  generalize hz : List.zipWith (· &&& ·) (b.num.toList.take d) (y.num.toList.take d) = z
  have hzlen : z.length = d := by
    rw [← hz, List.length_zipWith, List.length_take, List.length_take, NumArray.length_toList,
      NumArray.length_toList]
    omega
  have hzval : Limbs.val z = b.value &&& y.value := by
    have htb : b.num.toList.take d = b.sig.take d := by
      rw [sig, List.take_take, Nat.min_eq_left (by omega)]
    have hty : y.num.toList.take d = y.sig.take d := by
      rw [sig, List.take_take, Nat.min_eq_left (by omega)]
    rw [← hz, val_zipWith (g := (· &&& ·)) (o := (· && ·)) (fun a c i _ => BitVec.getLsbD_and)
      (fun m k i => Nat.testBit_and m k i) rfl
      (by rw [List.length_take, List.length_take, NumArray.length_toList,
        NumArray.length_toList]), htb, hty, val_take, val_take, ← Nat.and_mod_two_pow]
    apply Nat.mod_eq_of_lt
    rcases Nat.le_total b.digits y.digits with h | h
    · exact Nat.and_le_left.trans_lt (by rw [← hd, Nat.min_eq_left h]; exact hb.value_lt)
    · exact Nat.and_le_right.trans_lt (by rw [← hd, Nat.min_eq_right h]; exact hy.value_lt)
  -- the array after the loop, and after the digit above it is cleared
  generalize hb2 : (if d < (b.write z).count then (b.write z).setDig d 0 else b.write z) = b2
  have hcount : b2.count = b.count := by rw [← hb2]; split <;> rfl
  have hdigits : b2.digits = b.digits := by rw [← hb2]; split <;> rfl
  rcases bnUpdateDigits_spec (b := b2) (by omega) (by omega) d with ⟨hwf, habs⟩
  refine ⟨?_, hwf⟩
  have hspan : b2.updateSpan d = b.digits := by
    rw [updateSpan, hcount, hdigits]
    split <;> omega
  rw [mapRes_ok, habs, hspan, hcount]
  congr 2
  rcases Nat.lt_or_eq_of_le (show d ≤ b.digits by omega) with hlt | heq
  · have hnum : b2.num.toList.take b.digits = z ++ 0 :: b.sig.drop (d + 1) := by
      rw [← hb2, if_pos (by show d < b.count; omega)]
      show ((b.write z).num.toList.set d 0).take b.digits = _
      have hdrop : b.num.toList.drop d ≠ [] := by
        intro h
        have := congrArg List.length h
        simp [NumArray.length_toList] at this
        omega
      rw [write_toList b (by omega), List.set_append_right _ _ (by omega), hzlen, Nat.sub_self,
        List.take_append, List.take_of_length_le (by omega), hzlen]
      congr 1
      cases hl : b.num.toList.drop d with
      | nil => exact absurd hl hdrop
      | cons x xs =>
        have hxs : xs = b.num.toList.drop (d + 1) := by
          rw [← List.drop_drop, hl]
          rfl
        rw [List.set_cons_zero, show b.digits - d = (b.digits - (d + 1)) + 1 from by omega,
          List.take_succ_cons, hxs, sig, List.drop_take]
    rw [hnum, val_append, val_cons, hzval, hzlen, val_drop, ← value, pow_succ_mul,
      show (0 : Digit).toNat = 0 from rfl, Nat.zero_add]
    ring
  · have hnum : b2.num.toList.take b.digits = z := by
      rw [← hb2]
      split
      · show ((b.write z).num.toList.set d 0).take b.digits = z
        rw [List.take_set_of_le (by omega), take_write b (by omega) (by omega),
          List.take_of_length_le (by omega)]
      · rw [take_write b (by omega) (by omega), List.take_of_length_le (by omega)]
    have hzero : b.value / 2 ^ (64 * (d + 1)) = 0 := Nat.div_eq_of_lt
      (hb.value_lt.trans_le (Nat.pow_le_pow_right (by decide) (by omega)))
    rw [hnum, hzval, hzero, Nat.mul_zero, Nat.add_zero]

private theorem bnOrXor_refines {n : Arg Bn} (hn : n.WF) {op : Digit → Digit → Digit}
    {g : Nat → Nat → Nat} {o : Bool → Bool → Bool}
    (hf : ∀ a b i, i < 64 → (op a b).getLsbD i = o (a.getLsbD i) (b.getLsbD i))
    (hg : ∀ m n i, (g m n).testBit i = o (m.testBit i) (n.testBit i)) (ho : ∀ x, o x false = x) :
    Refines (bnOrXor op n) (Num.bnOrXor g (n.map abs)) := by
  intro b hb
  have hy := hn.get hb
  simp only [bnOrXor, Num.bnOrXor, Arg.get_map, abs_val, abs_count, ← hy.digits_eq]
  generalize n.get b = y at hy ⊢
  have hdc := hb.digits_le
  have hc32 := hb.count_le
  have hylen := hy.length_sig
  by_cases h : b.count < y.digits
  · simp only [if_pos h]
    exact ⟨rfl, hb⟩
  · simp only [if_neg h]
    generalize hD : max b.digits y.digits = D
    generalize hb1 : b.bnInitDigits D = b1
    have hcount : b1.count = b.count := by rw [← hb1, bnInitDigits_count]
    have hdigits : b1.digits = b.digits := by rw [← hb1, bnInitDigits_digits]
    have hval : Limbs.val (b1.num.toList.take D) = b.value := by
      rw [← hb1]
      exact bnInitDigits_val_take hdc hc32 _ (by omega) (by omega)
    have hzlen : (List.zipWith op (b1.num.toList.take y.digits) y.sig).length = y.digits := by
      rw [List.length_zipWith, List.length_take, NumArray.length_toList]
      omega
    rcases bnUpdateDigits_spec
      (b := b1.write (List.zipWith op (b1.num.toList.take y.digits) y.sig))
      (by show b1.digits ≤ b1.count; omega) (by show b1.count ≤ 32; omega) D with ⟨hwf, habs⟩
    refine ⟨?_, hwf⟩
    have hspan : (b1.write (List.zipWith op (b1.num.toList.take y.digits) y.sig)).updateSpan D =
        D := by
      rw [updateSpan, write_count, write_digits, hcount, hdigits]
      split <;> omega
    -- the digits above those of `n` are combined with zeros, which changes nothing
    have hzip : ∀ l : List Digit, List.zipWith op l (List.replicate l.length 0) = l := by
      intro l
      have hop : ∀ a : Digit, op a 0 = a := by
        intro a
        apply BitVec.eq_of_getLsbD_eq
        intro i hi
        rw [hf a 0 i hi, show (0 : Digit) = 0#64 from rfl, BitVec.getLsbD_zero, ho]
      induction l with
      | nil => rfl
      | cons a l ih => rw [List.length_cons, List.replicate_succ, List.zipWith_cons_cons, ih, hop]
    have hDlen : (b1.num.toList.take D).length = D := by
      rw [List.length_take, NumArray.length_toList]
      have := hy.digits_le_32
      omega
    have hnum : (b1.write (List.zipWith op (b1.num.toList.take y.digits) y.sig)).num.toList.take D =
        List.zipWith op (b1.num.toList.take D) (y.sig ++ List.replicate (D - y.digits) 0) := by
      have hsplit : b1.num.toList.take D = b1.num.toList.take y.digits ++
          (b1.num.toList.take D).drop y.digits := by
        conv_lhs => rw [← List.take_append_drop y.digits (b1.num.toList.take D)]
        rw [List.take_take, Nat.min_eq_left (by omega)]
      have hrest : ((b1.num.toList.take D).drop y.digits).length = D - y.digits := by
        rw [List.length_drop, hDlen]
      rw [write_toList b1 (by rw [hzlen]; exact hy.digits_le_32), List.take_append, hzlen,
        List.take_of_length_le (by rw [hzlen]; omega), ← List.drop_take]
      conv_rhs => rw [hsplit]
      rw [List.zipWith_append (by rw [List.length_take, NumArray.length_toList]; omega), ← hrest,
        hzip]
    have hylt : y.value < 2 ^ (64 * D) :=
      hy.value_lt.trans_le (Nat.pow_le_pow_right (by decide) (by omega))
    rw [mapRes_ok, habs, hspan, hnum, write_count, hcount]
    rw [val_zipWith hf hg (ho false) (by
      rw [hDlen, List.length_append, List.length_replicate]
      omega), hval, val_append, val_replicate_zero, Nat.mul_zero, Nat.add_zero]
    rfl

theorem bnOr_refines {n : Arg Bn} (hn : n.WF) : Refines (bnOr n) (Num.bnOr (n.map abs)) :=
  bnOrXor_refines hn (o := (· || ·)) (fun _ _ _ _ => BitVec.getLsbD_or)
    (fun m n i => Nat.testBit_or m n i) Bool.or_false

theorem bnXor_refines {n : Arg Bn} (hn : n.WF) : Refines (bnXor n) (Num.bnXor (n.map abs)) :=
  bnOrXor_refines hn (o := Bool.xor) (fun _ _ _ _ => BitVec.getLsbD_xor)
    (fun m n i => Nat.testBit_xor m n i) Bool.xor_false

/-! ## Products -/

theorem multLoop_val (mc : List Digit) (ms acc : List Digit)
    (hlen : ms.length + mc.length ≤ acc.length) :
    (multLoop mc ms acc).length = acc.length ∧
    Limbs.val (multLoop mc ms acc) =
      (Limbs.val acc + Limbs.val mc * Limbs.val ms) % 2 ^ (64 * acc.length) := by
  induction ms generalizing acc with
  | nil =>
    refine ⟨rfl, ?_⟩
    rw [multLoop, val_nil, Nat.mul_zero, Nat.add_zero, Nat.mod_eq_of_lt (val_lt acc)]
  | cons m ms ih =>
    rw [List.length_cons] at hlen
    have hstep : ∀ acc', acc' = (if m = 0 then acc else bnDigitsAddDigitMult acc mc m) →
        acc'.length = acc.length ∧
        Limbs.val acc' = (Limbs.val acc + m.toNat * Limbs.val mc) % 2 ^ (64 * acc.length) := by
      rintro acc' rfl
      by_cases hm : m = 0
      · rw [if_pos hm, hm, show (0 : Digit).toNat = 0 from rfl, Nat.zero_mul, Nat.add_zero,
          Nat.mod_eq_of_lt (val_lt acc)]
        exact ⟨rfl, rfl⟩
      · rw [if_neg hm]
        exact bnDigitsAddDigitMult_val m (by omega)
    rcases hstep _ rfl with ⟨hl, hv⟩
    rw [multLoop]
    generalize (if m = 0 then acc else bnDigitsAddDigitMult acc mc m) = acc' at hl hv ⊢
    match acc', hl, hv with
    | [], hl, _ =>
      simp at hl
      omega
    | a :: rest, hl, hv =>
      rw [List.length_cons] at hl
      rcases ih rest (by omega) with ⟨hrl, hrv⟩
      refine ⟨by rw [List.length_cons, hrl, hl], ?_⟩
      rw [val_cons] at hv
      rw [val_cons, hrv, val_cons, ← hl, pow_succ_mul]
      have ha := a.isLt
      -- carry the low digit into the modulus of the remaining digits
      have hcarry : ∀ P M : Nat, a.toNat + 2 ^ 64 * (P % M) =
          (a.toNat + 2 ^ 64 * P) % (2 ^ 64 * M) := by
        intro P M
        rw [Nat.mod_mul, Nat.add_mul_mod_self_left, Nat.mod_eq_of_lt ha,
          Nat.add_mul_div_left _ _ (by decide), Nat.div_eq_of_lt ha, Nat.zero_add]
      rw [hcarry, Nat.mul_add, ← Nat.add_assoc, hv, ← hl, pow_succ_mul, Nat.mod_add_mod]
      congr 1
      ring

theorem bnCmp_eq {a b : Bn} (ha : a.WF) (hb : b.WF) :
    bnCmp a b = compare a.value b.value := by
  rw [bnCmp]
  by_cases h : a.digits = b.digits
  · rw [if_neg (not_not.mpr h)]
    exact bnDigitsCmp_eq (by rw [ha.length_sig, hb.length_sig, h])
  · rw [if_pos h]
    rcases Nat.lt_or_gt_of_ne h with hlt | hgt
    · have hle : 2 ^ (64 * a.digits) ≤ b.value :=
        (lt_limbCount_iff (by decide) _ _).mp (by rw [← hb.digits_eq]; exact hlt)
      rw [Nat.compare_eq_lt.mpr hlt, eq_comm, Nat.compare_eq_lt]
      exact ha.value_lt.trans_le hle
    · have hle : 2 ^ (64 * b.digits) ≤ a.value :=
        (lt_limbCount_iff (by decide) _ _).mp (by rw [← ha.digits_eq]; exact hgt)
      rw [Nat.compare_eq_gt.mpr hgt, eq_comm, Nat.compare_eq_gt]
      exact hb.value_lt.trans_le hle

private theorem multFactors_spec (J : Junk) {n : Arg Bn} (hn : n.WF) {b : Bn} (hb : b.WF) :
    (multFactors (stateOf (bnAssignInit b (uninit J))) n).2.sig.length +
        (multFactors (stateOf (bnAssignInit b (uninit J))) n).1.sig.length =
      b.digits + (n.get b).digits ∧
    Limbs.val (multFactors (stateOf (bnAssignInit b (uninit J))) n).1.sig *
        Limbs.val (multFactors (stateOf (bnAssignInit b (uninit J))) n).2.sig =
      b.value * (n.get b).value := by
  have hblen := hb.length_sig
  have htmp : (stateOf (bnAssignInit b (uninit J))).sig = b.sig := by
    have htake := take_write (uninit J) (l := b.sig) (by rw [hblen]; exact hb.digits_le_32)
      (k := b.digits) (by rw [hblen])
    rwa [List.take_of_length_le (l := b.sig) (by rw [hblen])] at htake
  cases n with
  | self => exact ⟨by simp only [multFactors, htmp, hblen]; rfl, by simp only [multFactors, htmp]; rfl⟩
  | val y =>
    have hylen := (hn y rfl).length_sig
    simp only [multFactors, Arg.get]
    split
    · exact ⟨by rw [htmp, hblen, hylen, Nat.add_comm], by rw [htmp]; rfl⟩
    · exact ⟨by rw [htmp, hblen, hylen], by rw [htmp, Nat.mul_comm]; rfl⟩

theorem bnMult_refines (J : Junk) {n : Arg Bn} (hn : n.WF) :
    Refines (bnMult J n) (Num.bnMult J (n.map abs)) := by
  intro b hb
  have hy := hn.get hb
  simp only [bnMult, Num.bnMult, Arg.get_map, abs_val, abs_count, ← hy.digits_eq,
    ← hb.digits_eq, hb.digits_eq_zero, hy.digits_eq_zero]
  by_cases h0 : b.value = 0 ∨ (n.get b).value = 0
  · simp only [if_pos h0]
    refine ⟨?_, wf_zero_digits hb.count_le⟩
    rw [mapRes_ok, abs_zero_digits]
  · simp only [if_neg h0]
    by_cases h : b.count < b.digits + (n.get b).digits
    · simp only [if_pos h]
      exact ⟨rfl, hb⟩
    · simp only [if_neg h]
      have hc32 := hb.count_le
      rcases multFactors_spec J hn hb with ⟨hlen, hprod⟩
      generalize multFactors (stateOf (bnAssignInit b (uninit J))) n = f at hlen hprod
      generalize hD : b.digits + (n.get b).digits = D at h hlen
      have hz := wf_zero_digits (b := b) hc32
      generalize hb1 : Bn.bnInitDigits { b with digits := 0 } D = b1
      have hcount : b1.count = b.count := by rw [← hb1, bnInitDigits_count]
      have hdigits : b1.digits = 0 := by rw [← hb1, bnInitDigits_digits]
      have hval : Limbs.val (b1.num.toList.take D) = 0 := by
        rw [← hb1, bnInitDigits_val_take hz.digits_le hz.count_le D (Nat.zero_le _)
          (by simp; omega)]
        simp [value, sig]
      have hacc : (b1.num.toList.take D).length = D := by
        rw [List.length_take, NumArray.length_toList]
        omega
      rcases multLoop_val f.1.sig f.2.sig (b1.num.toList.take D) (by omega) with ⟨hml, hmv⟩
      rw [hacc] at hml hmv
      rw [hval, Nat.zero_add, hprod] at hmv
      have hspan : b1.updateSpan D = D := by
        rw [updateSpan, hcount, hdigits]
        split <;> omega
      rcases write_update (b := b1) (k := D) (l := multLoop f.1.sig f.2.sig
        (b1.num.toList.take D)) (by omega) (by omega) (by omega) (by omega) with ⟨hwf, habs⟩
      refine ⟨?_, hwf⟩
      have hfit : b.value * (n.get b).value < 2 ^ (64 * D) := by
        rw [← hD, Nat.mul_add, Nat.pow_add]
        exact Nat.mul_lt_mul'' hb.value_lt hy.value_lt
      rw [mapRes_ok, habs, hspan, hmv, Nat.mod_mod, Nat.mod_eq_of_lt hfit, hcount]

theorem uninit_wf (J : Junk) : (uninit J).WF := ⟨le_rfl, Nat.zero_le _, Or.inl rfl⟩

theorem argWF_self : Arg.WF .self := fun _ h => nomatch h

theorem argWF_val {b : Bn} (hb : b.WF) : Arg.WF (.val b) := by
  rintro x ⟨⟩
  exact hb

private theorem numAdd_ok {n : Arg Num} {x : Num} (hn : limbCount 64 (n.get x).val ≤ x.count) :
    Num.bnAdd n x = .ok (BitVec.ofNat 64 ((x.val + (n.get x).val) / x.cap))
      { x with val := (x.val + (n.get x).val) % x.cap } := by
  simp only [Num.bnAdd, if_neg (Nat.not_lt.mpr hn)]

theorem bnMultDigit_refines (J : Junk) (n : Digit) :
    Refines (bnMultDigit J n) (Num.bnMultDigit J n) := by
  intro b hb
  have hdc := hb.digits_le
  rw [bnMultDigit, Num.bnMultDigit, abs_val, abs_count]
  by_cases h0 : b.digits = 0
  · rw [if_pos h0, if_pos (hb.digits_eq_zero.mp h0)]
    exact ⟨rfl, hb⟩
  rw [if_neg h0, if_neg (fun h => h0 (hb.digits_eq_zero.mpr h))]
  by_cases hn0 : n = 0
  · rw [if_pos hn0, if_pos hn0]
    exact bnAssignZero_refines b hb
  rw [if_neg hn0, if_neg hn0]
  by_cases hn1 : n = 1
  · rw [if_pos hn1, if_pos hn1]
    exact ⟨rfl, hb⟩
  rw [if_neg hn1, if_neg hn1]
  have hfit : limbCount 64 b.abs.val ≤ b.abs.count := by rw [abs_val, ← hb.digits_eq]; exact hdc
  by_cases hn2 : n = 2
  · rw [if_pos hn2, if_pos (Or.inl hn2), hn2]
    -- two times the number is one addition, three times it two of them
    rcases (bnAdd_refines argWF_self).ok hb (numAdd_ok hfit) with ⟨t, ht, habs, hwf⟩
    simp only [bind_apply, ht, fold_ok, pure_apply, mapRes_ok, habs]
    refine ⟨?_, hwf⟩
    rw [show (2 : Digit).toNat = 2 from rfl, Nat.mul_two]
    rfl
  rw [if_neg hn2]
  by_cases hn3 : n = 3
  · rw [if_pos hn3, if_pos (Or.inr hn3), hn3]
    rcases (bnAssignInit_refines (argWF_val hb)).ok (uninit_wf J) rfl with ⟨t, ht, htabs, htwf⟩
    rcases (bnAdd_refines argWF_self).ok htwf (numAdd_ok (by rw [htabs]; exact hfit))
      with ⟨u, hu, huabs, huwf⟩
    rw [htabs] at huabs
    have hsum : limbCount 64 u.abs.val ≤ b.abs.count := by
      rw [huabs, limbCount_le_iff (by decide)]
      exact Nat.mod_lt _ (Nat.two_pow_pos _)
    rcases (bnAdd_refines (argWF_val huwf)).ok hb (numAdd_ok hsum) with ⟨v, hv, hvabs, hvwf⟩
    simp only [bind_apply, exec_apply, ht, fold_ok, hu, hv, pure_apply, mapRes_ok, hvabs]
    refine ⟨?_, hvwf⟩
    rw [Arg.map_val, Arg.get, huabs]
    simp only [Arg.get, abs_val]
    rw [Nat.add_mod_mod, show (3 : Digit).toNat = 3 from rfl,
      show b.value * 3 = b.value + (b.value + b.value) from by omega]
    rfl
  rw [if_neg hn3, if_neg (show ¬ (n = 2 ∨ n = 3) from fun h => h.elim hn2 hn3), ← hb.digits_eq]
  by_cases hfull : b.count ≤ b.digits
  · rw [if_pos hfull, if_pos hfull]
    exact ⟨rfl, hb⟩
  · rw [if_neg hfull, if_neg hfull]
    have hc32 := hb.count_le
    -- the product takes one digit more
    have hinit := bnInitDigits_wf hb (b.digits + 1)
    have hlen : ((b.bnInitDigits (b.digits + 1)).num.toList.take (b.digits + 1)).length =
        b.digits + 1 := by
      rw [List.length_take, NumArray.length_toList]
      omega
    rcases bnDigitsMultDigit_ok (a := (b.bnInitDigits (b.digits + 1)).num.toList.take
      (b.digits + 1)) n (by omega) with ⟨l, hl, hll, hlv⟩
    rw [hlen] at hll hlv
    rw [bnInitDigits_val_take hdc hc32 (b.digits + 1) (by omega) (by omega)] at hlv
    have hspan : (b.bnInitDigits (b.digits + 1)).updateSpan (b.digits + 1) = b.digits + 1 := by
      rw [updateSpan, bnInitDigits_count, bnInitDigits_digits]
      split <;> omega
    rcases write_update (b := b.bnInitDigits (b.digits + 1)) (l := l) (k := b.digits + 1)
      hinit.1.digits_le hinit.1.count_le (by rw [bnInitDigits_count]; omega) (by omega)
      with ⟨hwf, habs⟩
    have hprod : b.value * n.toNat < 2 ^ (64 * (b.digits + 1)) := by
      rw [pow_succ_mul, Nat.mul_comm (2 ^ 64)]
      exact Nat.mul_lt_mul'' hb.value_lt n.isLt
    simp only [hl]
    refine ⟨?_, hwf⟩
    rw [mapRes_ok, habs, hspan, hlv, Nat.mod_mod, Nat.mod_eq_of_lt hprod, bnInitDigits_count]

end Bn

end BigNum
