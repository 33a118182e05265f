import Liblcb.BigNum.ModHom
import Liblcb.BigNum.Products
import Liblcb.Lib.SignedDigits

/-!
# What the joint sparse form stands for

`bn_calc_jsf` writes two rows of digits that stand for its two numbers.  A local copy of zero is
read through a `num[0]` that was never written; when that digit is odd beside a number that is not
zero, the row of the zero does not stand for zero.
-/

namespace BigNum

open Limbs StateErr SignedDigits

/-! ## One digit -/

def IsJsfDigit (t : Int) : Prop := t = -1 ∨ t = 0 ∨ t = 1

theorem jsfItem_cases (l l' : Nat) :
    (l % 2 = 0 ∧ jsfItem l l' = 0) ∨
      (l % 2 = 1 ∧ (jsfItem l l' = 1 ∨ jsfItem l l' = -1)) := by
  unfold jsfItem
  by_cases heven : l % 2 = 0
  · rw [if_pos heven]
    exact Or.inl ⟨heven, rfl⟩
  · rw [if_neg heven]
    refine Or.inr ⟨by omega, ?_⟩
    split <;> omega

theorem isJsfDigit_jsfItem (l l' : Nat) : IsJsfDigit (jsfItem l l') := by
  have := jsfItem_cases l l'
  unfold IsJsfDigit
  omega

theorem jsfItem_one (l' : Nat) : jsfItem 1 l' = 1 := by
  unfold jsfItem
  rw [if_neg (by decide), if_neg (by omega)]
  rfl

theorem jsfCarry_eq {v l : Nat} (l' : Nat) {d : Int} (hd : d = 0 ∨ d = 1)
    (hl : (l : Int) % 2 = (v + d) % 2) :
    (jsfCarry d (jsfItem l l') = 0 ∨ jsfCarry d (jsfItem l l') = 1) ∧
      (v : Int) + d = jsfItem l l' + 2 * ((v / 2 : Nat) + jsfCarry d (jsfItem l l')) := by
  have hitem := jsfItem_cases l l'
  generalize jsfItem l l' = t at *
  unfold jsfCarry
  split <;> omega

/-! ## One of the two numbers -/

/-- A number with its carry that is recoded right: the low digit of a zero is even, and zero when a
carry is left. -/
structure JsfSide (x : LowNat) (d : Int) : Prop where
  carry : d = 0 ∨ d = 1
  stale : x.val = 0 → x.stale.toNat % 2 = 0 ∧ (d = 1 → x.stale = 0)

namespace JsfSide

variable {x : LowNat} {d : Int}

/-- `l0` and `l1` of the source for a number with carry `d`. -/
def low (x : LowNat) (d : Int) : Nat := jsfLow (LowNat.jsfSource.low x) d

theorem low_mod_two (h : JsfSide x d) : (low x d : Int) % 2 = (x.val + d) % 2 := by
  have hd := h.carry
  unfold low jsfLow
  by_cases h0 : x.val = 0
  · have hstale := (h.stale h0).1
    rw [show LowNat.jsfSource.low x = x.stale from if_pos h0, h0]
    omega
  · rw [show LowNat.jsfSource.low x = BitVec.ofNat 64 x.val from if_neg h0, BitVec.toNat_ofNat]
    omega

theorem half (h : JsfSide x d) (l' : Nat) :
    JsfSide (LowNat.jsfSource.half x) (jsfCarry d (jsfItem (low x d) l')) := by
  have hstep := jsfCarry_eq l' h.carry h.low_mod_two
  refine ⟨hstep.1, fun hhalf => ?_⟩
  by_cases h0 : x.val = 0
  · have hstale := h.stale h0
    rw [show LowNat.jsfSource.half x = x from if_pos h0]
    refine ⟨hstale.1, fun hone => hstale.2 ?_⟩
    rcases h.carry with hd | hd
    · have hl := h.low_mod_two
      have hitem := jsfItem_cases (low x d) l'
      omega
    · exact hd
  · rw [show LowNat.jsfSource.half x = ⟨x.val / 2, 0⟩ from if_neg h0]
    exact ⟨rfl, fun _ => rfl⟩

theorem val_half (x : LowNat) : (LowNat.jsfSource.half x).val = x.val / 2 := by
  show (if x.val = 0 then x else ⟨x.val / 2, 0⟩ : LowNat).val = _
  split
  next h0 => rw [h0]
  next => rfl

theorem carry_done (h : JsfSide x d) (h0 : x.val = 0) (l' : Nat) :
    jsfCarry d (jsfItem (low x d) l') = 0 := by
  have hstale := h.stale h0
  rcases h.carry with hd | hd
  · have hl := h.low_mod_two
    have hitem := jsfItem_cases (low x d) l'
    unfold jsfCarry
    split <;> omega
  · have hlow : low x d = 1 := by
      unfold low jsfLow
      rw [show LowNat.jsfSource.low x = x.stale from if_pos h0, hstale.2 hd, hd]
      rfl
    rw [hlow, jsfItem_one, hd]
    rfl

end JsfSide

/-! ## The rows -/

/-- Rounds `i` to `i'` have written digits that stand for `x` and `y`, and nothing else. -/
structure JsfRows (offset i i' : Nat) (arr arr' : List Int) (x y : Int) : Prop where
  le : i ≤ i'
  kept : ∀ j, ¬(i ≤ j ∧ j < i') → ¬(i + offset ≤ j ∧ j < i' + offset) →
    digitsOf arr' j = digitsOf arr j
  digit : ∀ j, i ≤ j → j < i' →
    IsJsfDigit (digitsOf arr' j) ∧ IsJsfDigit (digitsOf arr' (j + offset))
  value0 : value (fun j => digitsOf arr' (i + j)) (i' - i) = x
  value1 : value (fun j => digitsOf arr' (i + j + offset)) (i' - i) = y

theorem JsfRows.nil (offset i : Nat) (arr : List Int) : JsfRows offset i i arr arr 0 0 where
  le := le_rfl
  kept := fun _ _ _ => rfl
  digit := fun j hij hji => absurd hij (not_le.mpr hji)
  value0 := by rw [Nat.sub_self, value_zero]
  value1 := by rw [Nat.sub_self, value_zero]

theorem digitsOf_set (arr : List Int) (i j : Nat) (t : Int) :
    digitsOf (arr.set i t) j = if i = j ∧ i < arr.length then t else digitsOf arr j := by
  unfold digitsOf
  rw [List.getD_eq_getElem?_getD, List.getElem?_set, List.getD_eq_getElem?_getD]
  by_cases hij : i = j
  · subst hij
    by_cases hlen : i < arr.length
    · rw [if_pos rfl, if_pos hlen, if_pos ⟨rfl, hlen⟩, Option.getD_some]
    · rw [if_pos rfl, if_neg hlen, if_neg fun h => hlen h.2, List.getElem?_eq_none (not_lt.mp hlen)]
  · rw [if_neg hij, if_neg fun h => hij h.1]

def putItems (offset i : Nat) (arr : List Int) (t0 t1 : Int) : List Int :=
  (arr.set i t0).set (i + offset) t1

theorem digitsOf_putItems {offset i : Nat} {arr : List Int} (t0 t1 : Int)
    (hlen : i + offset < arr.length) (j : Nat) :
    digitsOf (putItems offset i arr t0 t1) j =
      if j = i + offset then t1 else if j = i then t0 else digitsOf arr j := by
  rw [putItems, digitsOf_set, digitsOf_set, List.length_set]
  by_cases h1 : j = i + offset
  · rw [if_pos ⟨h1.symm, hlen⟩, if_pos h1]
  · rw [if_neg fun h => h1 h.1.symm, if_neg h1]
    by_cases h0 : j = i
    · rw [if_pos ⟨h0.symm, by omega⟩, if_pos h0]
    · rw [if_neg fun h => h0 h.1.symm, if_neg h0]

theorem JsfRows.cons {offset i i' : Nat} {arr arr' : List Int} {t0 t1 x y : Int}
    (h : JsfRows offset (i + 1) i' (putItems offset i arr t0 t1) arr' x y)
    (hi' : i' ≤ offset) (hlen : i + offset < arr.length) (ht0 : IsJsfDigit t0)
    (ht1 : IsJsfDigit t1) : JsfRows offset i i' arr arr' (t0 + 2 * x) (t1 + 2 * y) := by
  have hle := h.le
  have hput := digitsOf_putItems t0 t1 hlen
  -- the two items are not written again
  have hfirst : digitsOf arr' i = t0 := by
    rw [h.kept i (by omega) (by omega), hput, if_neg (by omega), if_pos rfl]
  have hsecond : digitsOf arr' (i + offset) = t1 := by
    rw [h.kept _ (by omega) (by omega), hput, if_pos rfl]
  have hsucc : i' - i = i' - (i + 1) + 1 := by omega
  exact
    { le := by omega
      kept := by
        intro j hj hj'
        rw [h.kept j (by omega) (by omega), hput, if_neg (by omega), if_neg (by omega)]
      digit := by
        intro j hij hji
        by_cases hj : j = i
        · rw [hj, hfirst, hsecond]
          exact ⟨ht0, ht1⟩
        · exact h.digit j (by omega) hji
      value0 := by
        rw [hsucc, value_succ, Nat.add_zero, hfirst, ← h.value0]
        simp only [Nat.add_assoc, Nat.add_comm 1]
      value1 := by
        rw [hsucc, value_succ, Nat.add_zero, hsecond, ← h.value1]
        simp only [Nat.add_assoc, Nat.add_comm 1] }

/-! ## The loop -/

section

variable {offset : Nat} {x y : LowNat} {d0 d1 : Int}

theorem jsfLoop_step (fuel i : Nat) (arr : List Int)
    (hgo : (x.val ≠ 0 ∨ d0 ≠ 0) ∨ (y.val ≠ 0 ∨ d1 ≠ 0)) (hlen : i + offset < arr.length) :
    jsfLoop LowNat.jsfSource offset (fuel + 1) i x y d0 d1 arr =
      jsfLoop LowNat.jsfSource offset fuel (i + 1) (LowNat.jsfSource.half x)
        (LowNat.jsfSource.half y)
        (jsfCarry d0 (jsfItem (JsfSide.low x d0) (JsfSide.low y d1)))
        (jsfCarry d1 (jsfItem (JsfSide.low y d1) (JsfSide.low x d0)))
        (putItems offset i arr (jsfItem (JsfSide.low x d0) (JsfSide.low y d1))
          (jsfItem (JsfSide.low y d1) (JsfSide.low x d0))) := by
  rw [jsfLoop, if_pos (by simpa [LowNat.jsfSource] using hgo), if_neg (by omega)]
  rfl

theorem jsfLoop_done (fuel i : Nat) (arr : List Int) (hx : x.val = 0) (hy : y.val = 0) :
    jsfLoop LowNat.jsfSource offset (fuel + 1) i x y 0 0 arr = .ok (arr, i) := by
  rw [jsfLoop, if_neg (by simp [LowNat.jsfSource, hx, hy])]

/-- The loop ends by round `n` and writes rows that stand for the two numbers. -/
def Recodes (offset fuel i n : Nat) (x y : LowNat) (d0 d1 : Int) (arr : List Int) : Prop :=
  ∃ arr' i', jsfLoop LowNat.jsfSource offset fuel i x y d0 d1 arr = .ok (arr', i') ∧ i' ≤ n ∧
    arr'.length = arr.length ∧ JsfRows offset i i' arr arr' (x.val + d0) (y.val + d1)

theorem Recodes.done (fuel n i : Nat) (arr : List Int) (hx : x.val = 0) (hy : y.val = 0)
    (hi : i ≤ n) : Recodes offset (fuel + 1) i n x y 0 0 arr := by
  refine ⟨arr, i, jsfLoop_done fuel i arr hx hy, hi, rfl, ?_⟩
  rw [hx, hy]
  exact JsfRows.nil offset i arr

theorem Recodes.step (fuel i n : Nat) (arr : List Int) (hx : JsfSide x d0) (hy : JsfSide y d1)
    (hi : i < n) (hn : n ≤ offset) (hlen : 2 * offset ≤ arr.length)
    (h : Recodes offset fuel (i + 1) n (LowNat.jsfSource.half x) (LowNat.jsfSource.half y)
      (jsfCarry d0 (jsfItem (JsfSide.low x d0) (JsfSide.low y d1)))
      (jsfCarry d1 (jsfItem (JsfSide.low y d1) (JsfSide.low x d0)))
      (putItems offset i arr (jsfItem (JsfSide.low x d0) (JsfSide.low y d1))
        (jsfItem (JsfSide.low y d1) (JsfSide.low x d0)))) :
    Recodes offset (fuel + 1) i n x y d0 d1 arr := by
  by_cases hgo : (x.val ≠ 0 ∨ d0 ≠ 0) ∨ (y.val ≠ 0 ∨ d1 ≠ 0)
  · have hstepx := (jsfCarry_eq (JsfSide.low y d1) hx.carry hx.low_mod_two).2
    have hstepy := (jsfCarry_eq (JsfSide.low x d0) hy.carry hy.low_mod_two).2
    obtain ⟨arr', i', hrun, hi', hlen', hrows⟩ := h
    rw [JsfSide.val_half, JsfSide.val_half] at hrows
    refine ⟨arr', i', ?_, hi', ?_, ?_⟩
    · rw [jsfLoop_step fuel i arr hgo (by omega), hrun]
    · rw [hlen', putItems, List.length_set, List.length_set]
    · rw [hstepx, hstepy]
      exact hrows.cons (by omega) (by omega) (isJsfDigit_jsfItem _ _) (isJsfDigit_jsfItem _ _)
  · simp only [not_or, not_not] at hgo
    rw [hgo.1.2, hgo.2.2]
    exact Recodes.done fuel n i arr hgo.1.1 hgo.2.1 (Nat.le_of_lt hi)

theorem jsfLoop_recodes (k fuel i : Nat) (arr : List Int) (hx : JsfSide x d0) (hy : JsfSide y d1)
    (hxk : x.val < 2 ^ k) (hyk : y.val < 2 ^ k) (hfuel : k + 1 < fuel) (hi : i + k + 1 ≤ offset)
    (hlen : 2 * offset ≤ arr.length) : Recodes offset fuel i (i + k + 1) x y d0 d1 arr := by
  induction k generalizing fuel i x y d0 d1 arr with
  | zero =>
    -- only the carries are left
    obtain ⟨fuel, rfl⟩ : ∃ f, fuel = f + 2 := ⟨fuel - 2, by omega⟩
    rw [Nat.pow_zero] at hxk hyk
    apply Recodes.step (fuel + 1) i _ arr hx hy (by omega) hi hlen
    rw [hx.carry_done (by omega), hy.carry_done (by omega)]
    apply Recodes.done fuel _ _ _ ?_ ?_ le_rfl
    · rw [JsfSide.val_half]
      omega
    · rw [JsfSide.val_half]
      omega
  | succ k ih =>
    obtain ⟨fuel, rfl⟩ : ∃ f, fuel = f + 1 := ⟨fuel - 1, by omega⟩
    rw [Nat.pow_succ] at hxk hyk
    apply Recodes.step fuel i _ arr hx hy (by omega) hi hlen
    have h := ih fuel (i + 1) (putItems offset i arr
      (jsfItem (JsfSide.low x d0) (JsfSide.low y d1))
      (jsfItem (JsfSide.low y d1) (JsfSide.low x d0))) (hx.half (JsfSide.low y d1))
      (hy.half (JsfSide.low x d0)) (by rw [JsfSide.val_half]; omega)
      (by rw [JsfSide.val_half]; omega) (by omega) (by omega)
      (by rwa [putItems, List.length_set, List.length_set])
    rwa [show i + 1 + k + 1 = i + (k + 1) + 1 by omega] at h

theorem jsfLoop_kept {fuel i i' : Nat} {arr arr' : List Int} {x y : LowNat} {d0 d1 : Int}
    (h : jsfLoop LowNat.jsfSource offset fuel i x y d0 d1 arr = .ok (arr', i')) :
    i ≤ i' ∧ ∀ j, ¬(i ≤ j ∧ j < i') → ¬(i + offset ≤ j ∧ j < i' + offset) →
      digitsOf arr' j = digitsOf arr j := by
  induction fuel generalizing i x y d0 d1 arr with
  | zero => cases h
  | succ fuel ih =>
    rw [jsfLoop] at h
    split at h
    next hgo =>
      split at h
      next => cases h
      next hlen =>
        obtain ⟨hle, hkept⟩ := ih h
        refine ⟨by omega, fun j hj hj' => ?_⟩
        rw [hkept j (by omega) (by omega)]
        refine (digitsOf_putItems _ _ (by omega) j).trans ?_
        rw [if_neg (by omega), if_neg (by omega)]
    next hstop =>
      injection h with h
      injection h with harr hi
      subst harr hi
      exact ⟨le_rfl, fun _ _ _ => rfl⟩

theorem jsfLoop_ne_eoverflow (fuel i : Nat) (x y : LowNat) (d0 d1 : Int) (arr : List Int) :
    jsfLoop LowNat.jsfSource offset fuel i x y d0 d1 arr ≠ .error .eoverflow := by
  induction fuel generalizing i x y d0 d1 arr with
  | zero => exact fun h => by cases h
  | succ fuel ih =>
    rw [jsfLoop]
    split
    · split
      · exact fun h => by cases h
      · exact ih _ _ _ _ _ _
    · exact fun h => by cases h

end

/-! ## The function -/

/-- What `bn_calc_jsf` returns are two rows below each other's offset that stand for `a` and `b`. -/
structure JsfOf (a b : Nat) (r : Jsf) : Prop where
  offset_eq : r.offset = max (bitCount a) (bitCount b) + 1
  itemsCnt_le : r.itemsCnt ≤ r.offset
  room : 2 * r.offset ≤ r.arr.length
  digit : ∀ i < r.itemsCnt,
    IsJsfDigit (digitsOf r.arr i) ∧ IsJsfDigit (digitsOf r.arr (i + r.offset))
  value0 : value (fun i => digitsOf r.arr i) r.itemsCnt = a
  value1 : value (fun i => digitsOf r.arr (i + r.offset)) r.itemsCnt = b

namespace ByValue

variable {a b size : Nat} {g0 g1 : Digit}

/-- Locals for `a` and `b` whose arrays held `g0` and `g1` at first. -/
def jsfRun (a b size : Nat) (g0 g1 : Digit) : Except Err Jsf :=
  calcJsf LowNat.jsfSource (bitCount a) (bitCount b) ⟨a, g0⟩ ⟨b, g1⟩ size

theorem jsfRun_narrow (h : size < 2 * (max (bitCount a) (bitCount b) + 1)) :
    jsfRun a b size g0 g1 = .error .eoverflow :=
  if_pos h

theorem jsfRun_ne_eoverflow (h : 2 * (max (bitCount a) (bitCount b) + 1) ≤ size) :
    jsfRun a b size g0 g1 ≠ .error .eoverflow := by
  intro hr
  rw [jsfRun, calcJsf, if_neg (by omega)] at hr
  generalize hl : jsfLoop LowNat.jsfSource _ _ _ _ _ _ _ _ = l at hr
  cases l with
  | error e =>
    cases hr
    exact jsfLoop_ne_eoverflow _ _ _ _ _ _ _ hl
  | ok p => cases hr

theorem lt_two_pow_max (a b : Nat) : a < 2 ^ max (bitCount a) (bitCount b) ∧
    b < 2 ^ max (bitCount a) (bitCount b) :=
  ⟨(Bn.bitCount_lt_iff a _).mp (Nat.le_max_left _ _),
    (Bn.bitCount_lt_iff b _).mp (Nat.le_max_right _ _)⟩

theorem jsfRun_of_sides (hsize : 2 * (max (bitCount a) (bitCount b) + 1) ≤ size)
    (hx : JsfSide ⟨a, g0⟩ 0) (hy : JsfSide ⟨b, g1⟩ 0) :
    ∃ r, jsfRun a b size g0 g1 = .ok r ∧ JsfOf a b r := by
  have hlt := lt_two_pow_max a b
  have hloop : Recodes (max (bitCount a) (bitCount b) + 1) (size + 1) 0
      (0 + max (bitCount a) (bitCount b) + 1) ⟨a, g0⟩ ⟨b, g1⟩ 0 0 (List.replicate size 0) :=
    jsfLoop_recodes _ (size + 1) 0 _ hx hy hlt.1 hlt.2 (by omega) (by omega)
      (by rwa [List.length_replicate])
  obtain ⟨arr, i, hrun, hi, hlen, hrows⟩ := hloop
  rw [List.length_replicate] at hlen
  refine ⟨⟨arr, i, max (bitCount a) (bitCount b) + 1⟩, ?_, ?_⟩
  · rw [jsfRun, calcJsf, if_neg (by omega), hrun]
    rfl
  · exact
      { offset_eq := rfl
        itemsCnt_le := hi.trans_eq (by rw [Nat.zero_add])
        room := by rwa [hlen]
        digit := fun j hj => hrows.digit j (Nat.zero_le j) hj
        value0 := by simpa using hrows.value0
        value1 := by simpa using hrows.value1 }

theorem jsfRun_zero (hsize : 2 ≤ size) :
    ∃ r, jsfRun 0 0 size g0 g1 = .ok r ∧ JsfOf 0 0 r := by
  refine ⟨⟨List.replicate size 0, 0, 1⟩, ?_, ?_⟩
  · have hroom : ¬size < 2 * (max (bitCount 0) (bitCount 0) + 1) := not_lt.mpr hsize
    rw [jsfRun, calcJsf, if_neg hroom, jsfLoop_done _ _ _ rfl rfl]
    rfl
  · exact
      { offset_eq := rfl
        itemsCnt_le := Nat.zero_le 1
        room := by rwa [List.length_replicate]
        digit := fun i hi => absurd hi (Nat.not_lt_zero i)
        value0 := rfl
        value1 := rfl }

theorem jsfRun_first {r : Jsf} (hr : jsfRun a b size g0 g1 = .ok r) (hrows : JsfOf a b r)
    (hgo : a ≠ 0 ∨ b ≠ 0) :
    ∃ f0 f1 : Int,
      (a : Int) = jsfItem (JsfSide.low ⟨a, g0⟩ 0) (JsfSide.low ⟨b, g1⟩ 0) + 2 * f0 ∧
      (b : Int) = jsfItem (JsfSide.low ⟨b, g1⟩ 0) (JsfSide.low ⟨a, g0⟩ 0) + 2 * f1 := by
  rw [jsfRun, calcJsf] at hr
  split at hr
  next => cases hr
  next hsize =>
    have hgo' : ((⟨a, g0⟩ : LowNat).val ≠ 0 ∨ (0 : Int) ≠ 0) ∨
        ((⟨b, g1⟩ : LowNat).val ≠ 0 ∨ (0 : Int) ≠ 0) :=
      hgo.imp Or.inl Or.inl
    have hlen : 0 + (max (bitCount a) (bitCount b) + 1) <
        (List.replicate size (0 : Int)).length := by
      rw [List.length_replicate]
      omega
    rw [jsfLoop_step size 0 _ hgo' hlen] at hr
    generalize hl : jsfLoop LowNat.jsfSource _ size (0 + 1) _ _ _ _ _ = l at hr
    cases l with
    | error e => cases hr
    | ok p =>
      obtain ⟨arr, i⟩ := p
      cases hr
      obtain ⟨hle, hkept⟩ := jsfLoop_kept hl
      have hput := digitsOf_putItems (jsfItem (JsfSide.low ⟨a, g0⟩ 0) (JsfSide.low ⟨b, g1⟩ 0))
        (jsfItem (JsfSide.low ⟨b, g1⟩ 0) (JsfSide.low ⟨a, g0⟩ 0)) hlen
      have hcnt : i ≤ max (bitCount a) (bitCount b) + 1 := hrows.itemsCnt_le
      obtain ⟨n, hn⟩ : ∃ n, i = n + 1 := ⟨i - 1, by omega⟩
      have h0 := hrows.value0
      have h1 := hrows.value1
      simp only at h0 h1
      rw [hn, value_succ, hkept 0 (by omega) (by omega), hput, if_neg (by omega),
        if_pos rfl] at h0
      rw [hn, value_succ, hkept _ (by omega) (by omega), hput, if_pos rfl] at h1
      exact ⟨_, _, h0.symm, h1.symm⟩

end ByValue

namespace Bn

open ByValue

variable {size : Nat} {a b : Bn}

/-- `bn_calc_jsf` returns EOVERFLOW or two rows that stand for its numbers. -/
def JsfExact (J : Junk) (size : Nat) (a b : Bn) : Prop :=
  bnCalcJsf J a b size = .error .eoverflow ∨
    ∃ r, bnCalcJsf J a b size = .ok r ∧ JsfOf a.value b.value r

/-- A zero beside a number that is not, in a local whose `num[0]` was odd before it was written. -/
def StaleOdd (a b : Nat) (g0 g1 : Digit) : Prop :=
  (a = 0 ∧ b ≠ 0 ∧ g0.toNat % 2 = 1) ∨ (b = 0 ∧ a ≠ 0 ∧ g1.toNat % 2 = 1)

theorem bnCalcJsf_eq (J : Junk) (ha : a.WF) (hb : b.WF) : bnCalcJsf J a b size =
    jsfRun a.value b.value size ((J 0).array.toList.getD 0 0) ((J 1).array.toList.getD 0 0) :=
  bnCalcJsf_refines J ha hb size

theorem odd_of_stale {g : Digit} (hg : g.toNat % 2 = 1) (l' : Nat) {f : Int}
    (h : ((0 : Nat) : Int) = jsfItem (JsfSide.low ⟨0, g⟩ 0) l' + 2 * f) : False := by
  have hitem := jsfItem_cases (JsfSide.low ⟨0, g⟩ 0) l'
  have hlow : JsfSide.low ⟨0, g⟩ 0 % 2 = 1 := by
    unfold JsfSide.low jsfLow
    rw [show LowNat.jsfSource.low ⟨0, g⟩ = g from rfl]
    omega
  omega

/-- The rows are right unless a zero operand finds an odd digit in its local. -/
theorem jsfExact_iff (J : Junk) (ha : a.WF) (hb : b.WF) :
    JsfExact J size a b ↔
      size < 2 * (max (bitCount a.value) (bitCount b.value) + 1) ∨
        ¬StaleOdd a.value b.value ((J 0).array.toList.getD 0 0) ((J 1).array.toList.getD 0 0) := by
  unfold JsfExact
  rw [bnCalcJsf_eq J ha hb]
  generalize (J 0).array.toList.getD 0 0 = g0
  generalize (J 1).array.toList.getD 0 0 = g1
  generalize a.value = x
  generalize b.value = y
  by_cases hsize : size < 2 * (max (bitCount x) (bitCount y) + 1)
  · exact iff_of_true (Or.inl (jsfRun_narrow hsize)) (Or.inl hsize)
  have hsize := not_lt.mp hsize
  constructor
  · intro h
    refine Or.inr fun hstale => ?_
    have hgo : x ≠ 0 ∨ y ≠ 0 := hstale.symm.imp (fun h => h.2.1) fun h => h.2.1
    rcases h with herr | ⟨r, hr, hrows⟩
    · exact absurd herr (jsfRun_ne_eoverflow hsize)
    · obtain ⟨f0, f1, h0, h1⟩ := jsfRun_first hr hrows hgo
      rcases hstale with ⟨rfl, -, hodd⟩ | ⟨rfl, -, hodd⟩
      · exact odd_of_stale hodd _ h0
      · exact odd_of_stale hodd _ h1
  · intro h
    have hstale := h.resolve_left (not_lt.mpr hsize)
    right
    by_cases hzero : x = 0 ∧ y = 0
    · obtain ⟨rfl, rfl⟩ := hzero
      exact jsfRun_zero (by omega)
    · unfold StaleOdd at hstale
      apply jsfRun_of_sides hsize
      · exact ⟨Or.inl rfl, fun hx => ⟨by simp only at hx ⊢; omega, fun h => absurd h (by decide)⟩⟩
      · exact ⟨Or.inl rfl, fun hy => ⟨by simp only at hy ⊢; omega, fun h => absurd h (by decide)⟩⟩

/-- 5 and 3 side by side. -/
theorem jsfExact_five : JsfExact blank 8 (oneDigit 1 5) (oneDigit 1 3) :=
  (jsfExact_iff blank (oneDigit_wf (by decide) (by decide) (by decide))
    (oneDigit_wf (by decide) (by decide) (by decide))).mpr
    (Or.inr (by unfold StaleOdd; decide))

/-- A zero whose local starts with a one, beside 1. -/
theorem not_forall_jsfExact :
    ¬ ∀ (J : Junk) (size : Nat) (a b : Bn), a.WF → b.WF → JsfExact J size a b := by
  intro h
  have hzero : (⟨1, 0, blank.array⟩ : Bn).WF := ⟨by decide, by decide, Or.inl rfl⟩
  have hone : (oneDigit 1 1).WF := oneDigit_wf (by decide) (by decide) (by decide)
  let J : Junk := ⟨fun _ => (oneDigit 1 1).num⟩
  have hval : (⟨1, 0, blank.array⟩ : Bn).value = 0 := rfl
  have hone' : (oneDigit 1 1).value = 1 := by decide
  have hrun := h J 4 _ _ hzero hone
  unfold JsfExact at hrun
  rw [bnCalcJsf_eq J hzero hone, hval, hone'] at hrun
  rcases hrun with herr | ⟨r, hr, hrows⟩
  · exact jsfRun_ne_eoverflow (by decide) herr
  · obtain ⟨f0, f1, h0, -⟩ := jsfRun_first hr hrows (Or.inr (by decide))
    exact odd_of_stale rfl _ h0

end Bn

end BigNum
