import Liblcb.BigNum.RefineDiv

/-!
# Normalised records

`WfBn` is a record together with its representation invariant.  Its operations are those of `Bn`,
which keep the invariant, so that code written over `BnOps` runs on it unchanged.
-/

namespace BigNum

open Limbs StateErr

/-! ## `bn_calc_jsf` on records and on values -/

theorem jsfLoop_sim {T T' : Type} {src : JsfSource T} {src' : JsfSource T'} {R : T → T' → Prop}
    (hzero : ∀ a a', R a a' → src.isZero a = src'.isZero a')
    (hlow : ∀ a a', R a a' → src.low a = src'.low a')
    (hhalf : ∀ a a', R a a' → R (src.half a) (src'.half a')) (offset fuel : Nat) :
    ∀ (i : Nat) (a b : T) (a' b' : T') (d0 d1 : Int) (arr : List Int), R a a' → R b b' →
      jsfLoop src offset fuel i a b d0 d1 arr = jsfLoop src' offset fuel i a' b' d0 d1 arr := by
  induction fuel with
  | zero =>
    intro i a b a' b' d0 d1 arr _ _
    rfl
  | succ fuel ih =>
    intro i a b a' b' d0 d1 arr ha hb
    unfold jsfLoop
    rw [hzero a a' ha, hzero b b' hb, hlow a a' ha, hlow b b' hb]
    split
    · split
      · rfl
      · exact ih _ _ _ _ _ _ _ _ (hhalf a a' ha) (hhalf b b' hb)
    · rfl

theorem calcJsf_sim {T T' : Type} {src : JsfSource T} {src' : JsfSource T'} (R : T → T' → Prop)
    (hzero : ∀ a a', R a a' → src.isZero a = src'.isZero a')
    (hlow : ∀ a a', R a a' → src.low a = src'.low a')
    (hhalf : ∀ a a', R a a' → R (src.half a) (src'.half a')) (bitsA bitsB : Nat) {a b : T}
    {a' b' : T'} (ha : R a a') (hb : R b b') (jsfArrSize : Nat) :
    calcJsf src bitsA bitsB a b jsfArrSize = calcJsf src' bitsA bitsB a' b' jsfArrSize := by
  simp only [calcJsf, jsfLoop_sim hzero hlow hhalf _ _ _ _ _ _ _ _ _ _ ha hb]

namespace Bn

/-- A local of `bn_calc_jsf` and the value it stands for. -/
def JsfRel (b : Bn) (x : LowNat) : Prop :=
  b.WF ∧ b.value = x.val ∧ (x.val = 0 → b.dig 0 = x.stale)

theorem dig_zero_eq {b : Bn} (hb : b.WF) (h : b.value ≠ 0) :
    b.dig 0 = BitVec.ofNat 64 b.value := by
  have hd : 0 < b.digits := Nat.pos_of_ne_zero (fun h0 => h (hb.digits_eq_zero.mp h0))
  rw [dig_eq_sig b hd, getD_eq_ofNat, ← value, Nat.mul_zero, Nat.pow_zero, Nat.div_one]

theorem bnUpdateDigits_num (b : Bn) (digits : Nat) : (b.bnUpdateDigits digits).num = b.num := by
  unfold bnUpdateDigits
  split
  · rfl
  · split
    · rfl
    · split <;> rfl

theorem bnRShift_dig_zero {b t : Bn} (hb : b.WF) (h0 : b.value ≠ 0)
    (hrun : bnRShift 1 b = .ok () t) (ht : t.value = 0) : t.dig 0 = 0 := by
  have hd : b.digits ≠ 0 := fun h => h0 (hb.digits_eq_zero.mp h)
  have h32 := hb.digits_le_32
  rcases bnDigitsRShift_ok (a := b.sig) 1 (by rw [hb.length_sig]; omega) with ⟨l, hl, hll, hlv⟩
  rw [hb.length_sig] at hll
  rw [bnRShift, if_neg hd, hl] at hrun
  injection hrun with _ hrun
  have hval : Limbs.val l = t.value := by
    have hnum : Num.bnRShift 1 b.abs = .ok () ⟨b.count, b.value / 2 ^ 1⟩ := by
      have hpos : 0 < limbCount 64 b.value := by
        rw [← hb.digits_eq]
        exact Nat.pos_of_ne_zero hd
      rw [Num.bnRShift, abs_val, if_neg h0, if_neg (by omega), abs_count]
    rcases (bnRShift_refines 1).ok hb hnum with ⟨t', ht', habs, -⟩
    rw [bnRShift, if_neg hd, hl] at ht'
    injection ht' with _ ht'
    have htt : t = t' := hrun.symm.trans ht'
    have := congrArg Num.val habs
    rw [abs_val, ← htt] at this
    rw [this, hlv]
    rfl
  have hzero : l.getD 0 0 = 0 := by
    rw [getD_eq_ofNat, hval, ht]
    rfl
  rw [← hrun, dig, bnUpdateDigits_num, write_toList b (by omega), List.getD_eq_getElem?_getD,
    List.getElem?_append_left (by omega), ← List.getD_eq_getElem?_getD, hzero]

theorem JsfRel.half {b : Bn} {x : LowNat} (h : JsfRel b x) :
    JsfRel (jsfSource.half b) (LowNat.jsfSource.half x) := by
  rcases h with ⟨hb, hv, hstale⟩
  by_cases h0 : x.val = 0
  · have hd : b.digits = 0 := hb.digits_eq_zero.mpr (hv.trans h0)
    have hsame : jsfSource.half b = b := by
      show stateOf (bnRShift 1 b) = b
      rw [bnRShift, if_pos hd]
      rfl
    have hsame' : LowNat.jsfSource.half x = x := if_pos h0
    rw [hsame, hsame']
    exact ⟨hb, hv, hstale⟩
  · have hb0 : b.value ≠ 0 := hv ▸ h0
    have hnum : Num.bnRShift 1 b.abs = .ok () ⟨b.count, b.value / 2⟩ := by
      have hpos : 0 < limbCount 64 b.value :=
        Nat.pos_of_ne_zero (fun h => hb0 (limbCount_eq_zero.mp h))
      rw [Num.bnRShift, abs_val, if_neg hb0, if_neg (by omega), abs_count, Nat.pow_one]
    rcases (bnRShift_refines 1).ok hb hnum with ⟨t, ht, habs, hwf⟩
    have hhalf : jsfSource.half b = t := by
      show stateOf (bnRShift 1 b) = t
      rw [ht]
      rfl
    have hhalf' : LowNat.jsfSource.half x = ⟨x.val / 2, 0⟩ := if_neg h0
    have htv : t.value = b.value / 2 := congrArg Num.val habs
    rw [hhalf, hhalf']
    refine ⟨hwf, by rw [htv, hv], ?_⟩
    intro hz
    exact bnRShift_dig_zero hb hb0 ht (by rw [htv, hv]; exact hz)

theorem jsfRel_init (J : Junk) {a : Bn} (ha : a.WF) :
    JsfRel (stateOf (bnAssignInit a (uninit J))) ⟨a.value, J.array.toList.getD 0 0⟩ := by
  rcases (bnAssignInit_refines (argWF_val ha)).ok (uninit_wf J) rfl with ⟨t, ht, habs, hwf⟩
  have hstate : stateOf (bnAssignInit (.val a) (uninit J)) = t := by
    rw [ht]
    rfl
  rw [hstate]
  refine ⟨hwf, congrArg Num.val habs, ?_⟩
  intro h0
  -- nothing is copied into the array
  have hsig : a.sig = [] := by
    have hd : a.digits = 0 := ha.digits_eq_zero.mpr h0
    rw [sig, hd, List.take_zero]
  have hwrite : (write (uninit J) []).num = J.array := rfl
  rw [← hstate]
  show List.getD (write (uninit J) a.sig).num.toList 0 0 = _
  rw [hsig, hwrite]

theorem calcBits_eq {b : Bn} (hb : b.WF) : b.calcBits = bitCount b.value := by
  unfold calcBits
  by_cases h0 : b.digits = 0
  · rw [if_pos h0, bitCount, if_pos (hb.digits_eq_zero.mp h0)]
  · rw [if_neg h0, bnDigitClz_top hb h0, topClz, ← hb.digits_eq]
    have := bitCount_le_limbCount b.value
    rw [← hb.digits_eq] at this
    omega

theorem bnCalcJsf_refines (J : Junk) {a b : Bn} (ha : a.WF) (hb : b.WF) (jsfArrSize : Nat) :
    bnCalcJsf J a b jsfArrSize = Num.bnCalcJsf J a.abs b.abs jsfArrSize := by
  unfold bnCalcJsf Num.bnCalcJsf
  rw [calcBits_eq ha, calcBits_eq hb]
  apply calcJsf_sim JsfRel
  · rintro c x ⟨hc, hv, -⟩
    show (c.digits == 0) = (x.val == 0)
    rw [← hv, Bool.eq_iff_iff, beq_iff_eq, beq_iff_eq]
    exact hc.digits_eq_zero
  · rintro c x ⟨hc, hv, hstale⟩
    show c.dig 0 = if x.val = 0 then x.stale else BitVec.ofNat 64 x.val
    split
    · exact hstale (by assumption)
    · rw [← hv]
      exact dig_zero_eq hc (by rw [hv]; assumption)
  · intro c x h
    exact h.half
  · exact jsfRel_init (J 0) ha
  · exact jsfRel_init (J 1) hb

end Bn

/-! ## The lifted operations -/

/-- A record that satisfies the representation invariant. -/
structure WfBn where
  bn : Bn
  wf : bn.WF

namespace WfBn

def abs (b : WfBn) : Num := b.bn.abs

@[simp] theorem abs_mk (b : Bn) (h : b.WF) : abs ⟨b, h⟩ = b.abs := rfl

def liftRes {α : Type} (r : EStateM.Result Err Bn α) (h : (stateOf r).WF) :
    EStateM.Result Err WfBn α :=
  match r, h with
  | .ok a t, h => .ok a ⟨t, h⟩
  | .error e t, h => .error e ⟨t, h⟩

theorem mapRes_liftRes {α β γ : Type} (φ : Bn → β) (ψ : α → γ) (r : EStateM.Result Err Bn α)
    (h : (stateOf r).WF) : mapRes (fun b : WfBn => φ b.bn) ψ (liftRes r h) = mapRes φ ψ r := by
  cases r <;> rfl

/-- The remainder `bn_div` hands back, with its invariant. -/
def liftRem (r : Option Bn) (h : ∀ x, r = some x → x.WF) : Option WfBn :=
  match r, h with
  | none, _ => none
  | some x, h => some ⟨x, h x rfl⟩

theorem map_liftRem {β : Type} (φ : Bn → β) (r : Option Bn) (h : ∀ x, r = some x → x.WF) :
    (liftRem r h).map (fun x => φ x.bn) = r.map φ := by
  cases r <;> rfl

/-- `liftRes` for the division. -/
def liftDiv (r : EStateM.Result Err Bn (Option Bn)) (h : (stateOf r).WF)
    (hr : ∀ x, valueOf r = .ok (some x) → x.WF) : EStateM.Result Err WfBn (Option WfBn) :=
  match r, h, hr with
  | .ok r t, h, hr => .ok (liftRem r (fun x hx => hr x (by rw [valueOf_ok, hx]))) ⟨t, h⟩
  | .error e t, h, _ => .error e ⟨t, h⟩

theorem mapRes_liftDiv {β : Type} (φ : Bn → β) (r : EStateM.Result Err Bn (Option Bn))
    (h : (stateOf r).WF) (hr : ∀ x, valueOf r = .ok (some x) → x.WF) :
    mapRes (fun b : WfBn => φ b.bn) (Option.map fun b : WfBn => φ b.bn) (liftDiv r h hr) =
      mapRes φ (Option.map φ) r := by
  cases r with
  | ok x t =>
    exact congrArg (fun o => EStateM.Result.ok o (φ t))
      (map_liftRem φ x (fun y hy => hr y (by rw [valueOf_ok, hy])))
  | error e t => rfl

theorem arg_wf (n : Arg WfBn) : (n.map bn).WF := by
  cases n with
  | self => exact Bn.argWF_self
  | val x => exact Bn.argWF_val x.wf

theorem rem_wf (r : Rem WfBn) : Bn.RemWF (r.map bn) := by
  cases r with
  | null => exact fun _ h => nomatch h
  | self => exact fun _ h => nomatch h
  | other x =>
    rintro y ⟨⟩
    exact x.wf

/-- An operation of `Bn` that refines one of `Num`, on normalised records. -/
def liftR {α : Type} {f : BnM Bn α} {g : BnM Num α} (h : Refines f g) : BnM WfBn α :=
  fun b => liftRes (f b.bn) (h b.bn b.wf).2

theorem liftR_bn {α : Type} {f : BnM Bn α} {g : BnM Num α} (h : Refines f g) (b : WfBn) :
    f b.bn = mapRes bn id (liftR h b) := by
  have := mapRes_liftRes id id (f b.bn) (h b.bn b.wf).2
  rw [show mapRes id id (f b.bn) = f b.bn from by cases f b.bn <;> rfl] at this
  exact this.symm

theorem liftR_abs {α : Type} {f : BnM Bn α} {g : BnM Num α} (h : Refines f g) (b : WfBn) :
    g b.abs = mapRes abs id (liftR h b) := by
  rw [show b.abs = b.bn.abs from rfl, ← (h b.bn b.wf).1]
  exact (mapRes_liftRes Bn.abs id (f b.bn) (h b.bn b.wf).2).symm

instance : BnOps WfBn where
  count b := b.bn.count
  sig b := b.bn.sig
  uninit J := ⟨Bn.uninit J, Bn.uninit_wf J⟩
  low b := b.bn.dig 0
  bnInit bits := liftR (Bn.bnInit_refines bits)
  bnBitSet bit v := liftR (Bn.bnBitSet_refines bit v)
  bnImportLeBin buf := liftR (Bn.bnImportLeBin_refines buf)
  bnImportBeBin buf := liftR (Bn.bnImportBeBin_refines buf)
  bnImportLeHex buf := liftR (Bn.bnImportLeHex_refines buf)
  bnImportBeHex buf := liftR (Bn.bnImportBeHex_refines buf)
  bnAssign n := liftR (Bn.bnAssign_refines (arg_wf n))
  bnAssignInit n := liftR (Bn.bnAssignInit_refines (arg_wf n))
  bnAssignZero := liftR Bn.bnAssignZero_refines
  bnAssignDigit _ hd := liftR (Bn.bnAssignDigit_refines hd)
  bnLShift bits := liftR (Bn.bnLShift_refines bits)
  bnRShift bits := liftR (Bn.bnRShift_refines bits)
  bnAnd n := liftR (Bn.bnAnd_refines (arg_wf n))
  bnOr n := liftR (Bn.bnOr_refines (arg_wf n))
  bnXor n := liftR (Bn.bnXor_refines (arg_wf n))
  bnAddDigit n := liftR (Bn.bnAddDigit_refines n)
  bnAdd n := liftR (Bn.bnAdd_refines (arg_wf n))
  bnSubDigit n := liftR (Bn.bnSubDigit_refines n)
  bnSub n := liftR (Bn.bnSub_refines (arg_wf n))
  bnMult J n := liftR (Bn.bnMult_refines J (arg_wf n))
  bnMultDigit J n := liftR (Bn.bnMultDigit_refines J n)
  bnDiv J d r b := liftDiv (Bn.bnDiv J (d.map bn) (r.map bn) b.bn)
    (Bn.bnDiv_refines J (arg_wf d) (rem_wf r) b.bn b.wf).2.1
    (Bn.bnDiv_refines J (arg_wf d) (rem_wf r) b.bn b.wf).2.2
  bnCalcJsf J a b := Bn.bnCalcJsf J a.bn b.bn

end WfBn

end BigNum

/-!
# Maps between kinds of numbers

A `BnHom` maps one kind of numbers to another and commutes with every operation of the interface.
A function written over `BnOps` then commutes with it too: running it on the images gives the image
of the run.  Normalised records map to records (so what is proved of normalised records holds of the
code) and to values (so what is proved of values does); the second map may also forget what the
locals hold.
-/

namespace BigNum

open Limbs StateErr BnOps

/-- A map of numbers that commutes with the operations of `BnOps`. -/
structure BnHom (B B' : Type) [BnOps B] [BnOps B'] where
  toFun : B → B'
  /-- what the locals of the image hold -/
  junk : Junk → Junk
  junk_sub : ∀ J k, (junk J) k = junk (J k)
  count_eq : ∀ b, count (toFun b) = count b
  sig_eq : ∀ b, sig (toFun b) = sig b
  low_eq : ∀ b, sig b ≠ [] → low (toFun b) = low b
  uninit_eq : ∀ J, uninit (junk J) = toFun (uninit J)
  init : ∀ bits s, bnInit bits (toFun s) = mapRes toFun id (bnInit bits s)
  bitSet : ∀ bit v s, bnBitSet bit v (toFun s) = mapRes toFun id (bnBitSet bit v s)
  importLeBin : ∀ buf s, bnImportLeBin buf (toFun s) = mapRes toFun id (bnImportLeBin buf s)
  importBeBin : ∀ buf s, bnImportBeBin buf (toFun s) = mapRes toFun id (bnImportBeBin buf s)
  importLeHex : ∀ buf s, bnImportLeHex buf (toFun s) = mapRes toFun id (bnImportLeHex buf s)
  importBeHex : ∀ buf s, bnImportBeHex buf (toFun s) = mapRes toFun id (bnImportBeHex buf s)
  assign : ∀ n s, bnAssign (n.map toFun) (toFun s) = mapRes toFun id (bnAssign n s)
  assignInit : ∀ n s, bnAssignInit (n.map toFun) (toFun s) = mapRes toFun id (bnAssignInit n s)
  assignZero : ∀ s, bnAssignZero (toFun s) = mapRes toFun id (bnAssignZero s)
  assignDigit : ∀ d hd s, bnAssignDigit d hd (toFun s) = mapRes toFun id (bnAssignDigit d hd s)
  assignDigit_sig : ∀ d hd (s t : B), bnAssignDigit d hd s = .ok () t → sig t = [d]
  lShift : ∀ bits s, bnLShift bits (toFun s) = mapRes toFun id (bnLShift bits s)
  rShift : ∀ bits s, bnRShift bits (toFun s) = mapRes toFun id (bnRShift bits s)
  and : ∀ n s, bnAnd (n.map toFun) (toFun s) = mapRes toFun id (bnAnd n s)
  or : ∀ n s, bnOr (n.map toFun) (toFun s) = mapRes toFun id (bnOr n s)
  xor : ∀ n s, bnXor (n.map toFun) (toFun s) = mapRes toFun id (bnXor n s)
  addDigit : ∀ d s, bnAddDigit d (toFun s) = mapRes toFun id (bnAddDigit d s)
  add : ∀ n s, bnAdd (n.map toFun) (toFun s) = mapRes toFun id (bnAdd n s)
  subDigit : ∀ d s, bnSubDigit d (toFun s) = mapRes toFun id (bnSubDigit d s)
  sub : ∀ n s, bnSub (n.map toFun) (toFun s) = mapRes toFun id (bnSub n s)
  mult : ∀ J n s, bnMult (junk J) (n.map toFun) (toFun s) = mapRes toFun id (bnMult J n s)
  multDigit : ∀ J d s, bnMultDigit (junk J) d (toFun s) = mapRes toFun id (bnMultDigit J d s)
  div : ∀ J d r s, bnDiv (junk J) (d.map toFun) (r.map toFun) (toFun s) =
    mapRes toFun (Option.map toFun) (bnDiv J d r s)

instance {B B' : Type} [BnOps B] [BnOps B'] : CoeFun (BnHom B B') (fun _ => B → B') :=
  ⟨BnHom.toFun⟩

theorem WfBn.assignDigit_sig (d : Digit) (hd : d ≠ 0) (s t : WfBn)
    (hrun : bnAssignDigit d hd s = .ok () t) : sig t = [d] := by
  have hbn := WfBn.liftR_bn (Bn.bnAssignDigit_refines hd) s
  rw [show WfBn.liftR (Bn.bnAssignDigit_refines hd) s = .ok () t from hrun, mapRes_ok,
    Bn.bnAssignDigit] at hbn
  have hlen := s.bn.num.length_toList
  by_cases h0 : s.bn.count = 0
  · rw [if_pos h0] at hbn
    cases hbn
  · rw [if_neg h0] at hbn
    injection hbn with _ hbn
    show t.bn.sig = [d]
    rw [← hbn]
    show (s.bn.num.toList.set 0 d).take 1 = [d]
    cases hl : s.bn.num.toList with
    | nil =>
      rw [hl] at hlen
      cases hlen
    | cons x xs => simp

def bnHom : BnHom WfBn Bn where
  toFun := WfBn.bn
  junk J := J
  junk_sub _ _ := rfl
  count_eq _ := rfl
  sig_eq _ := rfl
  low_eq _ _ := rfl
  uninit_eq _ := rfl
  init _ := WfBn.liftR_bn _
  bitSet _ _ := WfBn.liftR_bn _
  importLeBin _ := WfBn.liftR_bn _
  importBeBin _ := WfBn.liftR_bn _
  importLeHex _ := WfBn.liftR_bn _
  importBeHex _ := WfBn.liftR_bn _
  assign n := WfBn.liftR_bn _
  assignInit _ := WfBn.liftR_bn _
  assignZero := WfBn.liftR_bn _
  assignDigit _ _ := WfBn.liftR_bn _
  assignDigit_sig := WfBn.assignDigit_sig
  lShift _ := WfBn.liftR_bn _
  rShift _ := WfBn.liftR_bn _
  and _ := WfBn.liftR_bn _
  or _ := WfBn.liftR_bn _
  xor _ := WfBn.liftR_bn _
  addDigit _ := WfBn.liftR_bn _
  add _ := WfBn.liftR_bn _
  subDigit _ := WfBn.liftR_bn _
  sub _ := WfBn.liftR_bn _
  mult _ _ := WfBn.liftR_bn _
  multDigit _ _ := WfBn.liftR_bn _
  div J d r s := by
    have h := WfBn.mapRes_liftDiv id (Bn.bnDiv J (d.map WfBn.bn) (r.map WfBn.bn) s.bn)
      (Bn.bnDiv_refines J (WfBn.arg_wf d) (WfBn.rem_wf r) s.bn s.wf).2.1
      (Bn.bnDiv_refines J (WfBn.arg_wf d) (WfBn.rem_wf r) s.bn s.wf).2.2
    rw [show ∀ r : EStateM.Result Err Bn (Option Bn), mapRes id (Option.map id) r = r from by
      intro r; cases r <;> simp] at h
    exact h.symm

theorem WfBn.map_abs (n : Arg WfBn) : n.map WfBn.abs = (n.map WfBn.bn).map Bn.abs := by
  cases n <;> rfl

theorem WfBn.rem_map_abs (r : Rem WfBn) : r.map WfBn.abs = (r.map WfBn.bn).map Bn.abs := by
  cases r <;> rfl

theorem sig_abs {b : Bn} (hb : b.WF) : sig b.abs = b.sig := by
  show limbs 64 (limbCount 64 b.value) b.value = b.sig
  rw [← hb.digits_eq, ← hb.length_sig, Bn.value, limbs_val]

def absHom : BnHom WfBn Num where
  toFun := WfBn.abs
  junk J := J
  junk_sub _ _ := rfl
  count_eq _ := rfl
  sig_eq b := sig_abs b.wf
  low_eq b h := by
    have h0 : b.bn.value ≠ 0 := by
      intro h0
      apply h
      show b.bn.num.toList.take b.bn.digits = []
      rw [b.wf.digits_eq_zero.mpr h0, List.take_zero]
    exact (Bn.dig_zero_eq b.wf h0).symm
  uninit_eq _ := rfl
  init _ := WfBn.liftR_abs _
  bitSet _ _ := WfBn.liftR_abs _
  importLeBin _ := WfBn.liftR_abs _
  importBeBin _ := WfBn.liftR_abs _
  importLeHex _ := WfBn.liftR_abs _
  importBeHex _ := WfBn.liftR_abs _
  assign n s := by rw [WfBn.map_abs]; exact WfBn.liftR_abs _ s
  assignInit n s := by rw [WfBn.map_abs]; exact WfBn.liftR_abs _ s
  assignZero := WfBn.liftR_abs _
  assignDigit _ _ := WfBn.liftR_abs _
  assignDigit_sig := WfBn.assignDigit_sig
  lShift _ := WfBn.liftR_abs _
  rShift _ := WfBn.liftR_abs _
  and n s := by rw [WfBn.map_abs]; exact WfBn.liftR_abs _ s
  or n s := by rw [WfBn.map_abs]; exact WfBn.liftR_abs _ s
  xor n s := by rw [WfBn.map_abs]; exact WfBn.liftR_abs _ s
  addDigit _ := WfBn.liftR_abs _
  add n s := by rw [WfBn.map_abs]; exact WfBn.liftR_abs _ s
  subDigit _ := WfBn.liftR_abs _
  sub n s := by rw [WfBn.map_abs]; exact WfBn.liftR_abs _ s
  mult J n s := by rw [WfBn.map_abs]; exact WfBn.liftR_abs _ s
  multDigit _ _ := WfBn.liftR_abs _
  div J d r s := by
    rw [WfBn.map_abs, WfBn.rem_map_abs]
    have href := Bn.bnDiv_refines J (WfBn.arg_wf d) (WfBn.rem_wf r) s.bn s.wf
    have h := WfBn.mapRes_liftDiv Bn.abs (Bn.bnDiv J (d.map WfBn.bn) (r.map WfBn.bn) s.bn)
      href.2.1 href.2.2
    exact (h.trans href.1).symm

/-- Locals that hold zeros. -/
def blank : Junk := ⟨fun _ => ⟨List.replicate 32 0, List.length_replicate⟩⟩

def valueHom : BnHom WfBn Num :=
  { absHom with
    junk := fun _ => blank
    junk_sub := fun _ _ => rfl
    uninit_eq := fun _ => rfl
    mult := absHom.mult
    multDigit := absHom.multDigit
    div := absHom.div }

theorem absHom_calcJsf (J : Junk) (a b : WfBn) (jsfArrSize : Nat) :
    bnCalcJsf J (absHom a) (absHom b) jsfArrSize = bnCalcJsf J a b jsfArrSize :=
  (Bn.bnCalcJsf_refines J a.wf b.wf jsfArrSize).symm

theorem Num.bnCalcJsf_junk (J J' : Junk) {x y : Num} (hx : x.val ≠ 0) (hy : y.val ≠ 0)
    (jsfArrSize : Nat) : Num.bnCalcJsf J x y jsfArrSize = Num.bnCalcJsf J' x y jsfArrSize := by
  unfold Num.bnCalcJsf
  apply calcJsf_sim (fun a a' : LowNat => a.val = a'.val ∧ (a.val = 0 → a.stale = a'.stale))
  · rintro a a' ⟨hval, -⟩
    show (a.val == 0) = (a'.val == 0)
    rw [hval]
  · rintro a a' ⟨hval, hstale⟩
    show (if a.val = 0 then a.stale else _) = if a'.val = 0 then a'.stale else _
    rw [← hval]
    split
    · exact hstale (by assumption)
    · rfl
  · rintro ⟨v, c⟩ ⟨v', c'⟩ ⟨hval, hstale⟩
    simp only at hval hstale
    subst hval
    by_cases h0 : v = 0
    · simpa [LowNat.jsfSource, h0] using hstale h0
    · simp [LowNat.jsfSource, h0]
  · exact ⟨rfl, fun h => absurd h hx⟩
  · exact ⟨rfl, fun h => absurd h hy⟩

end BigNum
