import Liblcb.BigNum.Hom
import Liblcb.BigNum.Mod

/-!
# Functions built on the operations commute with maps of numbers

One lemma for each function of `Read` and `Mod`: run on the images of its arguments it does what the
image of its run is.  The proofs rewrite both sides to the same case analysis.
-/

namespace BigNum

open Limbs StateErr BnOps

variable {B B' : Type} [BnOps B] [BnOps B'] (h : BnHom B B')

attribute [simp] BnHom.junk_sub BnHom.uninit_eq BnHom.count_eq BnHom.sig_eq BnHom.init BnHom.bitSet
  BnHom.importLeBin BnHom.importBeBin BnHom.importLeHex BnHom.importBeHex BnHom.assignZero
  BnHom.assignDigit BnHom.lShift BnHom.rShift BnHom.addDigit BnHom.subDigit BnHom.multDigit
  BnHom.assign BnHom.assignInit BnHom.and BnHom.or BnHom.xor BnHom.add BnHom.sub
  BnHom.mult BnHom.div

omit [BnOps B] in
@[simp] theorem Arg.get_val (x s : B) : (Arg.val x).get s = x := rfl

omit [BnOps B] in
@[simp] theorem Arg.get_self (s : B) : Arg.get .self s = s := rfl

/-! ## Operations with a pointer to another number -/

@[simp] theorem assign_val (x s : B) :
    bnAssign (.val (h x)) (h s) = mapRes h id (bnAssign (.val x) s) := h.assign (.val x) s

@[simp] theorem assignInit_val (x s : B) :
    bnAssignInit (.val (h x)) (h s) = mapRes h id (bnAssignInit (.val x) s) :=
  h.assignInit (.val x) s

@[simp] theorem xor_val (x s : B) : bnXor (.val (h x)) (h s) = mapRes h id (bnXor (.val x) s) :=
  h.xor (.val x) s

@[simp] theorem add_val (x s : B) : bnAdd (.val (h x)) (h s) = mapRes h id (bnAdd (.val x) s) :=
  h.add (.val x) s

@[simp] theorem sub_val (x s : B) : bnSub (.val (h x)) (h s) = mapRes h id (bnSub (.val x) s) :=
  h.sub (.val x) s

@[simp] theorem mult_val (J : Junk) (x s : B) :
    bnMult (h.junk J) (.val (h x)) (h s) = mapRes h id (bnMult J (.val x) s) := h.mult J (.val x) s

@[simp] theorem mult_self (J : Junk) (s : B) :
    bnMult (h.junk J) .self (h s) = mapRes h id (bnMult J .self s) := h.mult J .self s

@[simp] theorem div_self (J : Junk) (d : Arg B) (s : B) :
    bnDiv (h.junk J) (d.map h) .self (h s) = mapRes h (Option.map h) (bnDiv J d .self s) :=
  h.div J d .self s

@[simp] theorem div_val_self (J : Junk) (d s : B) :
    bnDiv (h.junk J) (.val (h d)) .self (h s) = mapRes h (Option.map h) (bnDiv J (.val d) .self s) :=
  h.div J (.val d) .self s

@[simp] theorem div_val_null (J : Junk) (d s : B) :
    bnDiv (h.junk J) (.val (h d)) .null (h s) = mapRes h (Option.map h) (bnDiv J (.val d) .null s) :=
  h.div J (.val d) .null s

@[simp] theorem div_val_other (J : Junk) (d r s : B) :
    bnDiv (h.junk J) (.val (h d)) (.other (h r)) (h s) =
      mapRes h (Option.map h) (bnDiv J (.val d) (.other r) s) := h.div J (.val d) (.other r) s

/-! ## Reading -/

@[simp] theorem bnIsZero_hom (b : B) : bnIsZero (h b) = bnIsZero b := by simp [bnIsZero]

@[simp] theorem bnIsOne_hom (b : B) : bnIsOne (h b) = bnIsOne b := by simp [bnIsOne]

@[simp] theorem bnIsEven_hom (b : B) : bnIsEven (h b) = bnIsEven b := by simp [bnIsEven]

@[simp] theorem bnIsOdd_hom (b : B) : bnIsOdd (h b) = bnIsOdd b := by simp [bnIsOdd]

@[simp] theorem lowDigit_hom (b : B) : lowDigit (h b) = lowDigit b := by simp [lowDigit]

@[simp] theorem digits_hom (b : B) : digits (h b) = digits b := by simp [digits]

@[simp] theorem bnCmp_hom (a b : B) : bnCmp (h a) (h b) = bnCmp a b := by simp [bnCmp]

@[simp] theorem bnCalcBits_hom (b : B) : bnCalcBits (h b) = bnCalcBits b := by simp [bnCalcBits]

@[simp] theorem bnCtz_hom (b : B) : bnCtz (h b) = bnCtz b := by simp [bnCtz]

theorem bnIsBitSet_hom {b : B} {bit : Nat} (hb : sig b ≠ [] ∨ 64 ≤ bit) :
    bnIsBitSet (h b) bit = bnIsBitSet b bit := by
  unfold bnIsBitSet
  by_cases hbit : bit < 64
  · rw [if_pos hbit, if_pos hbit, h.low_eq b (hb.resolve_right (by omega))]
  · simp [hbit]

@[simp] theorem comboLoop_hom (b : B) (wndCount i off : Nat) (res : Digit) :
    comboLoop (h b) wndCount i off res = comboLoop b wndCount i off res := by
  induction i generalizing off res with
  | zero => rfl
  | succ i ih => simp [comboLoop, ih]

@[simp] theorem bnComboColumnGet_hom (b : B) (bitOff wndBits wndCount : Nat) :
    bnComboColumnGet (h b) bitOff wndBits wndCount = bnComboColumnGet b bitOff wndBits wndCount := by
  simp [bnComboColumnGet]

section

variable {σ τ : Type} (φ : σ → τ)

theorem nafLoop_hom (wndBits room : Nat) (tm : B) (s : σ) :
    nafLoop wndBits room (h tm) (φ s) = mapRes φ id (nafLoop wndBits room tm s) := by
  induction room generalizing tm s with
  | zero =>
    unfold nafLoop
    simp
  | succ room ih =>
    unfold nafLoop
    simp [ih]

theorem bnCalcNaf_hom (J : Junk) (bn : B) (wndBits nafArrSize : Nat) (s : σ) :
    bnCalcNaf (h.junk J) (h bn) wndBits nafArrSize (φ s) =
      mapRes φ id (bnCalcNaf J bn wndBits nafArrSize s) := by
  simp [bnCalcNaf, nafLoop_hom h φ]

end

/-! ## Assignments and pointers -/

@[simp] theorem bnAssign2exp_hom (exp : Nat) (s : B) :
    bnAssign2exp exp (h s) = mapRes h id (bnAssign2exp exp s) := by
  simp [bnAssign2exp]

@[simp] theorem bnSquare_hom (J : Junk) (s : B) :
    bnSquare (h.junk J) (h s) = mapRes h id (bnSquare J s) := by
  simp [bnSquare]

theorem onPtr_hom {α β : Type} {ψ : α → β} {act : BnM B α} {act' : BnM B' β}
    (hact : ∀ s, act' (h s) = mapRes h ψ (act s)) (p : Arg B) (s : B) :
    onPtr (p.map h) act' (h s) = mapRes h (Arg.map h) (onPtr p act s) := by
  cases p <;> simp [onPtr, hact]

@[simp] theorem storePtr_hom (p : Arg B) (x s : B) :
    storePtr (p.map h) (h x) (h s) = mapRes h (Arg.map h) (storePtr p x s) := by
  cases p <;> simp [storePtr]

/-! ## Greatest common divisor -/

theorem gcdLoop_hom (J : Junk) (fuel : Nat) (ta tb : Arg B) (s : B) :
    gcdLoop (h.junk J) fuel (ta.map h) (tb.map h) (h s) =
      mapRes h (Arg.map h) (gcdLoop J fuel ta tb s) := by
  induction fuel generalizing ta tb s with
  | zero => simp [gcdLoop]
  | succ fuel ih =>
    have hdiv := onPtr_hom h (div_val_self h (J fuel) (tb.get s)) ta s
    simp [gcdLoop, hdiv, ih]

theorem bnGcd_hom (J : Junk) (a b : Arg B) (s : B) :
    bnGcd (h.junk J) (a.map h) (b.map h) (h s) = mapRes h id (bnGcd J a b s) := by
  simp [bnGcd, gcdLoop_hom h _ _ .self (.val _)]

theorem gcdBinLoop_hom (fuel shiftB : Nat) (ta tb : Arg B) (s : B) :
    gcdBinLoop fuel shiftB (ta.map h) (tb.map h) (h s) =
      mapRes h (Arg.map h) (gcdBinLoop fuel shiftB ta tb s) := by
  induction fuel generalizing shiftB ta tb s with
  | zero => simp [gcdBinLoop]
  | succ fuel ih =>
    have hsub : ∀ (p : Arg B) (x t : B), onPtr (p.map h) (bnSub (.val (h x))) (h t) =
        mapRes h (Arg.map h) (onPtr p (bnSub (.val x)) t) :=
      fun p x t => onPtr_hom h (sub_val h x) p t
    simp [gcdBinLoop, onPtr_hom h (h.rShift shiftB), hsub, ih]

theorem bnGcdBin_hom (J : Junk) (a b : Arg B) (s : B) :
    bnGcdBin (h.junk J) (a.map h) (b.map h) (h s) = mapRes h id (bnGcdBin J a b s) := by
  simp [bnGcdBin, gcdBinLoop_hom h _ _ .self (.val _)]

/-! ## Modular arithmetic -/

@[simp] theorem bnMod_hom (J : Junk) (m : Arg B) (s : B) :
    bnMod (h.junk J) (m.map h) (h s) = mapRes h id (bnMod J m s) := by
  simp [bnMod]

@[simp] theorem bnMod_val (J : Junk) (m s : B) :
    bnMod (h.junk J) (.val (h m)) (h s) = mapRes h id (bnMod J (.val m) s) := bnMod_hom h J (.val m) s

@[simp] theorem bnModAdd_hom (n m : Arg B) (s : B) :
    bnModAdd (n.map h) (m.map h) (h s) = mapRes h id (bnModAdd n m s) := by
  simp [bnModAdd]

@[simp] theorem bnModAdd_val (n m s : B) :
    bnModAdd (.val (h n)) (.val (h m)) (h s) = mapRes h id (bnModAdd (.val n) (.val m) s) :=
  bnModAdd_hom h (.val n) (.val m) s

@[simp] theorem bnModAdd_self (m s : B) :
    bnModAdd .self (.val (h m)) (h s) = mapRes h id (bnModAdd .self (.val m) s) :=
  bnModAdd_hom h .self (.val m) s

@[simp] theorem bnModSub_hom (J : Junk) (n m : Arg B) (s : B) :
    bnModSub (h.junk J) (n.map h) (m.map h) (h s) = mapRes h id (bnModSub J n m s) := by
  simp [bnModSub]

@[simp] theorem bnModSub_val (J : Junk) (n m s : B) :
    bnModSub (h.junk J) (.val (h n)) (.val (h m)) (h s) =
      mapRes h id (bnModSub J (.val n) (.val m) s) :=
  bnModSub_hom h J (.val n) (.val m) s

@[simp] theorem bnModMult_hom (J : Junk) (n m : Arg B) (s : B) :
    bnModMult (h.junk J) (n.map h) (m.map h) (h s) = mapRes h id (bnModMult J n m s) := by
  simp [bnModMult]

@[simp] theorem bnModMult_val (J : Junk) (n m s : B) :
    bnModMult (h.junk J) (.val (h n)) (.val (h m)) (h s) =
      mapRes h id (bnModMult J (.val n) (.val m) s) :=
  bnModMult_hom h J (.val n) (.val m) s

@[simp] theorem bnModMult_self (J : Junk) (m s : B) :
    bnModMult (h.junk J) .self (.val (h m)) (h s) = mapRes h id (bnModMult J .self (.val m) s) :=
  bnModMult_hom h J .self (.val m) s

@[simp] theorem bnModMultDigit_hom (J : Junk) (n : Digit) (m : Arg B) (s : B) :
    bnModMultDigit (h.junk J) n (m.map h) (h s) = mapRes h id (bnModMultDigit J n m s) := by
  simp [bnModMultDigit]

@[simp] theorem bnModMultDigit_val (J : Junk) (n : Digit) (m s : B) :
    bnModMultDigit (h.junk J) n (.val (h m)) (h s) = mapRes h id (bnModMultDigit J n (.val m) s) :=
  bnModMultDigit_hom h J n (.val m) s

@[simp] theorem bnModSquare_hom (J : Junk) (m : Arg B) (s : B) :
    bnModSquare (h.junk J) (m.map h) (h s) = mapRes h id (bnModSquare J m s) :=
  bnModMult_hom h J .self m s

@[simp] theorem bnModSquare_val (J : Junk) (m s : B) :
    bnModSquare (h.junk J) (.val (h m)) (h s) = mapRes h id (bnModSquare J (.val m) s) :=
  bnModSquare_hom h J (.val m) s

theorem expDigitLoop_hom (J : Junk) (m : Arg B) (fuel exp : Nat) (base s : B) :
    expDigitLoop (h.junk J) (m.map h) fuel exp (h base) (h s) =
      mapRes h id (expDigitLoop J m fuel exp base s) := by
  induction fuel generalizing exp base s with
  | zero => simp [expDigitLoop]
  | succ fuel ih =>
    simp [expDigitLoop, bnModMult_hom h _ (.val _), ih]

theorem bnModExpDigit_hom (J : Junk) (exp : Nat) (m : Arg B) (s : B) :
    bnModExpDigit (h.junk J) exp (m.map h) (h s) = mapRes h id (bnModExpDigit J exp m s) := by
  simp [bnModExpDigit, bnModMult_hom h _ .self, bnModMult_hom h _ (.val _),
    expDigitLoop_hom h]

theorem expLoop_hom (J : Junk) (exp m : Arg B) (n i : Nat) (base s : B)
    (hexp : n = 0 ∨ (sig (exp.get s) ≠ [] ∧ (n ≤ 1 ∨ ∃ e, exp = .val e))) :
    expLoop (h.junk J) (exp.map h) (m.map h) n i (h base) (h s) =
      mapRes h id (expLoop J exp m n i base s) := by
  induction n generalizing i base s with
  | zero => simp [expLoop]
  | succ n ih =>
    rcases hexp with h0 | ⟨hsig, hone⟩
    · exact absurd h0 (Nat.succ_ne_zero n)
    · have hnext : ∀ t, n = 0 ∨ (sig (exp.get t) ≠ [] ∧ (n ≤ 1 ∨ ∃ e, exp = .val e)) := by
        intro t
        rcases hone with hn | ⟨e, rfl⟩
        · exact Or.inl (by omega)
        · exact Or.inr ⟨hsig, Or.inr ⟨e, rfl⟩⟩
      simp [expLoop, bnIsBitSet_hom h (Or.inl hsig), bnModMult_hom h _ (.val _), ih _ _ _ (hnext _)]

theorem bnCalcBits_eq_zero {b : B} (hb : sig b = []) : bnCalcBits b = 0 := by
  simp [bnCalcBits, digits, hb]

@[simp] theorem bnModExp_hom (J : Junk) (exp m : Arg B) (s : B) :
    bnModExp (h.junk J) (exp.map h) (m.map h) (h s) = mapRes h id (bnModExp J exp m s) := by
  have hloop : ∀ (base t : B), bnAssignDigit 1 (by decide) s = .ok () t →
      expLoop (h.junk (J 2)) (exp.map h) (m.map h) (bnCalcBits (exp.get t)) 0 (h base) (h t) =
        mapRes h id (expLoop (J 2) exp m (bnCalcBits (exp.get t)) 0 base t) := by
    intro base t ht
    apply expLoop_hom
    cases exp with
    | self =>
      have hsig := h.assignDigit_sig 1 (by decide) s t ht
      right
      rw [Arg.get_self, bnCalcBits, digits, hsig]
      exact ⟨List.cons_ne_nil _ _, Or.inl (by decide)⟩
    | val e =>
      by_cases he : sig e = []
      · exact Or.inl (bnCalcBits_eq_zero he)
      · exact Or.inr ⟨he, Or.inr ⟨e, rfl⟩⟩
  have hdigit : ∀ base : B,
      fold (bnAssignDigit 1#64 (by decide) s)
        (fun _ t => expLoop (h.junk (J 2)) (exp.map h) (m.map h) (bnCalcBits (exp.get t)) 0 (h base)
          (h t))
        (fun e t => .error e (h t)) =
      fold (bnAssignDigit 1#64 (by decide) s)
        (fun _ t => mapRes h id (expLoop (J 2) exp m (bnCalcBits (exp.get t)) 0 base t))
        (fun e t => .error e (h t)) := by
    intro base
    cases ht : bnAssignDigit 1#64 (by decide) s with
    | ok a t => exact hloop base t ht
    | error e t => rfl
  simp [bnModExp, bnModMult_hom h _ .self, hdigit]

@[simp] theorem bnModExp_val (J : Junk) (exp m s : B) :
    bnModExp (h.junk J) (.val (h exp)) (.val (h m)) (h s) =
      mapRes h id (bnModExp J (.val exp) (.val m) s) := bnModExp_hom h J (.val exp) (.val m) s

/-! ## Inverses -/

@[simp] theorem invArgsBad_hom (bn m : B) : invArgsBad (h bn) (h m) = invArgsBad bn m := by
  simp [invArgsBad]

@[simp] theorem invBits_hom (bn m : B) : invBits (h bn) (h m) = invBits bn m := by
  simp [invBits]

section

variable {σ τ : Type} (φ : σ → τ)

theorem inv1Loop_hom (J : Junk) (fuel : Nat) (q t1 t3 u1 u3 v1 v3 w : B) (neg : Bool) (s : σ) :
    inv1Loop (h.junk J) fuel ⟨h q, h t1, h t3, h u1, h u3, h v1, h v3, h w⟩ neg (φ s) =
      mapRes φ (fun r => (h r.1, r.2))
        (inv1Loop J fuel ⟨q, t1, t3, u1, u3, v1, v3, w⟩ neg s) := by
  induction fuel generalizing q t1 t3 u1 u3 v1 v3 w neg s with
  | zero => simp [inv1Loop]
  | succ fuel ih =>
    unfold inv1Loop
    simp [ih]

theorem invHalve_hom (m : B) (fuel : Nat) (u x : B) (s : σ) :
    invHalve (h m) fuel (h u) (h x) (φ s) =
      mapRes φ (Prod.map h h) (invHalve m fuel u x s) := by
  induction fuel generalizing u x s with
  | zero => simp [invHalve]
  | succ fuel ih => simp [invHalve, halfMod, ih]

theorem invBinLoop_hom (J : Junk) (m : B) (fuel : Nat) (u v x1 x2 : B) (s : σ) :
    invBinLoop (h.junk J) (h m) fuel (h u) (h v) (h x1) (h x2) (φ s) =
      mapRes φ h (invBinLoop J m fuel u v x1 x2 s) := by
  induction fuel generalizing u v x1 x2 s with
  | zero => simp [invBinLoop]
  | succ fuel ih => simp [invBinLoop, invHalve_hom h φ, ih]

end

theorem bnModInv1_hom (J : Junk) (m : Arg B) (s : B) :
    bnModInv1 (h.junk J) (m.map h) (h s) = mapRes h id (bnModInv1 J m s) := by
  simp [bnModInv1, inv1Loop_hom h h.toFun]

theorem inv2Loop_hom (J : Junk) (m : B) (fuel : Nat) (pu pv pr : Arg B) (q d d1 d2 s : B) :
    inv2Loop (h.junk J) (h m) fuel (pu.map h) (pv.map h) (pr.map h) (h q) (h d) (h d1) (h d2) (h s) =
      mapRes h h (inv2Loop J m fuel pu pv pr q d d1 d2 s) := by
  induction fuel generalizing pu pv pr q d d1 d2 s with
  | zero => simp [inv2Loop]
  | succ fuel ih => simp [inv2Loop, ih]

theorem bnModInv2_hom (J : Junk) (m : Arg B) (s : B) :
    bnModInv2 (h.junk J) (m.map h) (h s) = mapRes h id (bnModInv2 J m s) := by
  have hloop := fun (m u r q d d1 d2 t : B) =>
    inv2Loop_hom h (J 6) m loopFuel (.val u) .self (.val r) q d d1 d2 t
  simp [bnModInv2, hloop]

@[simp] theorem bnModInvBin_hom (J : Junk) (m : Arg B) (s : B) :
    bnModInvBin (h.junk J) (m.map h) (h s) = mapRes h id (bnModInvBin J m s) := by
  simp [bnModInvBin, invBinLoop_hom h h.toFun]

@[simp] theorem bnModInv_val (J : Junk) (m s : B) :
    bnModInv (h.junk J) (.val (h m)) (h s) = mapRes h id (bnModInv J (.val m) s) :=
  bnModInvBin_hom h J (.val m) s

@[simp] theorem halfMod_hom (m s : B) : halfMod (h m) (h s) = mapRes h id (halfMod m s) := by
  simp [halfMod]

@[simp] theorem subHalfMod_hom (m y s : B) :
    subHalfMod (h m) (h y) (h s) = mapRes h id (subHalfMod m y s) := by
  simp [subHalfMod]

theorem divMontLoop_hom (m : B) (fuel : Nat) (v a b s : B) :
    divMontLoop (h m) fuel (h v) (h a) (h b) (h s) = mapRes h id (divMontLoop m fuel v a b s) := by
  induction fuel generalizing v a b s with
  | zero => simp [divMontLoop]
  | succ fuel ih => simp [divMontLoop, ih]

@[simp] theorem bnModDivMont_hom (J : Junk) (d m : Arg B) (s : B) :
    bnModDivMont (h.junk J) (d.map h) (m.map h) (h s) = mapRes h id (bnModDivMont J d m s) := by
  simp [bnModDivMont, divMontLoop_hom h]

theorem bnModInvMont_hom (J : Junk) (m : Arg B) (s : B) :
    bnModInvMont (h.junk J) (m.map h) (h s) = mapRes h id (bnModInvMont J m s) := by
  simp [bnModInvMont, bnModDivMont_hom h _ (.val _) (.val _)]

@[simp] theorem bnModDiv_hom (J : Junk) (d m : Arg B) (s : B) :
    bnModDiv (h.junk J) (d.map h) (m.map h) (h s) = mapRes h id (bnModDiv J d m s) := by
  simp [bnModDiv, bnModMult_hom h _ (.val _)]

@[simp] theorem bnModDiv_val (J : Junk) (d m s : B) :
    bnModDiv (h.junk J) (.val (h d)) (.val (h m)) (h s) =
      mapRes h id (bnModDiv J (.val d) (.val m) s) :=
  bnModDiv_hom h J (.val d) (.val m) s

/-! ## Other reductions -/

@[simp] theorem bnModReduce_hom (J : Junk) (m : Arg B) (s : B) :
    bnModReduce (h.junk J) (m.map h) (h s) = mapRes h id (bnModReduce J m s) := by
  simp [bnModReduce]

@[simp] theorem bnModReduce_val (J : Junk) (m s : B) :
    bnModReduce (h.junk J) (.val (h m)) (h s) = mapRes h id (bnModReduce J (.val m) s) :=
  bnModReduce_hom h J (.val m) s

theorem smallLoop_hom (m : Arg B) (fuel : Nat) (s : B) :
    smallLoop (m.map h) fuel (h s) = mapRes h id (smallLoop m fuel s) := by
  induction fuel generalizing s with
  | zero => simp [smallLoop]
  | succ fuel ih => simp [smallLoop, ih]

theorem bnModSmall_hom (m : Arg B) (s : B) :
    bnModSmall (m.map h) (h s) = mapRes h id (bnModSmall m s) := smallLoop_hom h m loopFuel s

/-! ## Square roots -/

section

variable {σ τ : Type} (φ : σ → τ)

theorem bnModLegendre_hom (J : Junk) (bn m : B) (s : σ) :
    bnModLegendre (h.junk J) (h bn) (h m) (φ s) = mapRes φ id (bnModLegendre J bn m s) := by
  simp [bnModLegendre]

theorem isNonresidue_hom (J : Junk) (bn m : B) (s : σ) :
    isNonresidue (h.junk J) (h bn) (h m) (φ s) = mapRes φ id (isNonresidue J bn m s) := by
  simp [isNonresidue, bnModLegendre_hom h φ]

theorem nonresidueLoop_hom (J : Junk) (m : B) (bits : Nat) (tm b : B) (s : σ) :
    nonresidueLoop (h.junk J) (h m) bits (h tm) (h b) (φ s) =
      mapRes φ (Option.map (Prod.map h h)) (nonresidueLoop J m bits tm b s) := by
  induction bits generalizing tm b s with
  | zero => simp [nonresidueLoop]
  | succ bits ih => simp [nonresidueLoop, isNonresidue_hom h φ, ih]

end

theorem tonelliLoop_hom (J : Junk) (m tm2 bnInv : B) (bits : Nat) (tm t b s : B) :
    tonelliLoop (h.junk J) (h m) (h tm2) (h bnInv) bits (h tm) (h t) (h b) (h s) =
      mapRes h id (tonelliLoop J m tm2 bnInv bits tm t b s) := by
  induction bits generalizing tm t b s with
  | zero => simp [tonelliLoop]
  | succ bits ih => simp [tonelliLoop, ih]

theorem sqrt34_hom (J : Junk) (m s : B) :
    sqrt34 (h.junk J) (h m) (h s) = mapRes h id (sqrt34 J m s) := by
  simp [sqrt34]

theorem sqrt58_hom (J : Junk) (m s : B) :
    sqrt58 (h.junk J) (h m) (h s) = mapRes h id (sqrt58 J m s) := by
  simp [sqrt58]

theorem sqrtTonelli_hom (J : Junk) (m s : B) :
    sqrtTonelli (h.junk J) (h m) (h s) = mapRes h id (sqrtTonelli J m s) := by
  simp [sqrtTonelli, nonresidueLoop_hom h h.toFun, tonelliLoop_hom h,
    orThrow_map h.toFun]

@[simp] theorem bnModSqrt_hom (J : Junk) (m : Arg B) (s : B) :
    bnModSqrt (h.junk J) (m.map h) (h s) = mapRes h id (bnModSqrt J m s) := by
  simp [bnModSqrt, isNonresidue_hom h h.toFun, sqrt34_hom, sqrt58_hom,
    sqrtTonelli_hom]

end BigNum

/-!
# From values back to records

A function written over `BnOps` commutes with the maps of normalised records to records and to
numbers, so on normalised records it refines its own run on numbers.
-/

namespace BigNum

open Limbs StateErr BnOps

theorem Arg.WF.lift {n : Arg Bn} (hn : n.WF) : ∃ n' : Arg WfBn, n'.map bnHom = n := by
  cases n with
  | self => exact ⟨.self, rfl⟩
  | val x => exact ⟨.val ⟨x, hn x rfl⟩, rfl⟩

theorem refines_of_hom {α : Type} {f : BnM WfBn α} {fb : BnM Bn α} {fn : BnM Num α}
    (hbn : ∀ s, fb (bnHom s) = mapRes bnHom id (f s))
    (habs : ∀ s, fn (absHom s) = mapRes absHom id (f s)) : Refines fb fn := by
  intro b hb
  have h1 := hbn ⟨b, hb⟩
  have h2 := habs ⟨b, hb⟩
  change fb b = _ at h1
  change fn b.abs = _ at h2
  rw [h1, h2]
  cases f ⟨b, hb⟩ with
  | ok a t => exact ⟨rfl, t.wf⟩
  | error e t => exact ⟨rfl, t.wf⟩

theorem refines_of_hom₁ {α : Type} {f : Arg WfBn → BnM WfBn α} {fb : Arg Bn → BnM Bn α}
    {fn : Arg Num → BnM Num α}
    (hbn : ∀ m s, fb (m.map bnHom) (bnHom s) = mapRes bnHom id (f m s))
    (habs : ∀ m s, fn (m.map absHom) (absHom s) = mapRes absHom id (f m s))
    {m : Arg Bn} (hm : m.WF) : Refines (fb m) (fn (m.map Bn.abs)) := by
  obtain ⟨m, rfl⟩ := hm.lift
  apply refines_of_hom (hbn m)
  intro s
  have h := habs m s
  rwa [show m.map absHom = (m.map bnHom).map Bn.abs from WfBn.map_abs m] at h

theorem refines_of_hom₂ {α : Type} {f : Arg WfBn → Arg WfBn → BnM WfBn α}
    {fb : Arg Bn → Arg Bn → BnM Bn α} {fn : Arg Num → Arg Num → BnM Num α}
    (hbn : ∀ n m s, fb (n.map bnHom) (m.map bnHom) (bnHom s) = mapRes bnHom id (f n m s))
    (habs : ∀ n m s, fn (n.map absHom) (m.map absHom) (absHom s) = mapRes absHom id (f n m s))
    {n m : Arg Bn} (hn : n.WF) (hm : m.WF) :
    Refines (fb n m) (fn (n.map Bn.abs) (m.map Bn.abs)) := by
  obtain ⟨n, rfl⟩ := hn.lift
  apply refines_of_hom₁ (f := f n) (hbn n) ?_ hm
  intro m s
  have h := habs n m s
  rwa [show n.map absHom = (n.map bnHom).map Bn.abs from WfBn.map_abs n] at h

section

variable {n m : Arg Bn} (J : Junk)

theorem bnMod_refines (hm : m.WF) : Refines (bnMod J m) (bnMod J (m.map Bn.abs)) :=
  refines_of_hom₁ (bnMod_hom bnHom J) (bnMod_hom absHom J) hm

theorem bnModAdd_refines (hn : n.WF) (hm : m.WF) :
    Refines (bnModAdd n m) (bnModAdd (n.map Bn.abs) (m.map Bn.abs)) :=
  refines_of_hom₂ (bnModAdd_hom bnHom) (bnModAdd_hom absHom) hn hm

theorem bnModSub_refines (hn : n.WF) (hm : m.WF) :
    Refines (bnModSub J n m) (bnModSub J (n.map Bn.abs) (m.map Bn.abs)) :=
  refines_of_hom₂ (bnModSub_hom bnHom J) (bnModSub_hom absHom J) hn hm

theorem bnModExpDigit_refines (exp : Nat) (hm : m.WF) :
    Refines (bnModExpDigit J exp m) (bnModExpDigit J exp (m.map Bn.abs)) :=
  refines_of_hom₁ (bnModExpDigit_hom bnHom J exp) (bnModExpDigit_hom absHom J exp) hm

theorem bnModExp_refines (hn : n.WF) (hm : m.WF) :
    Refines (bnModExp J n m) (bnModExp J (n.map Bn.abs) (m.map Bn.abs)) :=
  refines_of_hom₂ (bnModExp_hom bnHom J) (bnModExp_hom absHom J) hn hm

theorem bnModInv1_refines (hm : m.WF) : Refines (bnModInv1 J m) (bnModInv1 J (m.map Bn.abs)) :=
  refines_of_hom₁ (bnModInv1_hom bnHom J) (bnModInv1_hom absHom J) hm

theorem bnModInv2_refines (hm : m.WF) : Refines (bnModInv2 J m) (bnModInv2 J (m.map Bn.abs)) :=
  refines_of_hom₁ (bnModInv2_hom bnHom J) (bnModInv2_hom absHom J) hm

theorem bnModInvBin_refines (hm : m.WF) :
    Refines (bnModInvBin J m) (bnModInvBin J (m.map Bn.abs)) :=
  refines_of_hom₁ (bnModInvBin_hom bnHom J) (bnModInvBin_hom absHom J) hm

theorem bnModInvMont_refines (hm : m.WF) :
    Refines (bnModInvMont J m) (bnModInvMont J (m.map Bn.abs)) :=
  refines_of_hom₁ (bnModInvMont_hom bnHom J) (bnModInvMont_hom absHom J) hm

theorem bnModSqrt_refines (hm : m.WF) : Refines (bnModSqrt J m) (bnModSqrt J (m.map Bn.abs)) :=
  refines_of_hom₁ (bnModSqrt_hom bnHom J) (bnModSqrt_hom absHom J) hm

end

end BigNum
