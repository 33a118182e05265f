import Liblcb.BigNum.ModHom
import Liblcb.BigNum.Egcd

/-!
# Sequences of calls

A machine whose variables are numbers and whose steps are calls of the `bn_*` functions, with any
aliasing of the arguments.  Two properties of whole runs: every number stays normalised, and what a
run returns depends on the values of its numbers only, up to the calls that read a stale digit.
-/

namespace BigNum

open Limbs StateErr BnOps

/-- A call on the number `bn`; the other number arguments are names of variables. -/
inductive Call where
  | init (bits : Nat)
  | assign (src : Nat)
  | assignInit (src : Nat)
  | assignZero
  | assign2exp (exp : Nat)
  | assignDigit (digit : Digit) (h : digit ≠ 0)
  | importBeBin (buf : List (BitVec 8))
  | importLeBin (buf : List (BitVec 8))
  | importBeHex (buf : List (BitVec 8))
  | importLeHex (buf : List (BitVec 8))
  | bitSet (bit : Nat) (val : Bool)
  | isBitSet (bit : Nat)
  | lShift (bits : Nat)
  | rShift (bits : Nat)
  | and (n : Nat)
  | or (n : Nat)
  | xor (n : Nat)
  | addDigit (n : Digit)
  | add (n : Nat)
  | subDigit (n : Digit)
  | sub (n : Nat)
  | multDigit (n : Digit)
  | mult (n : Nat)
  | square
  | div (d : Nat) (remainder : Option Nat)
  | gcd (a b : Nat)
  | gcdBin (a b : Nat)
  | mod (m : Nat)
  | modAdd (n m : Nat)
  | modSub (n m : Nat)
  | modMult (n m : Nat)
  | modMultDigit (n : Digit) (m : Nat)
  | modSquare (m : Nat)
  | modExpDigit (exp : Nat) (m : Nat)
  | modExp (exp m : Nat)
  | modInv1 (m : Nat)
  | modInv2 (m : Nat)
  | modInvBin (m : Nat)
  | modDivMont (d m : Nat)
  | modInvMont (m : Nat)
  | modDiv (d m : Nat)
  | modReduce (m : Nat)
  | modSmall (m : Nat)
  | modLegendre (m : Nat)
  | modSqrt (m : Nat)
  | calcNaf (wndBits nafArrSize : Nat)
  | calcJsf (b jsfArrSize : Nat)

/-- What a call returns when it does not fail. -/
inductive Ret where
  | done
  | digit (d : Option Digit)
  | flag (b : Bool)
  | int (z : Int)
  | items (l : List Int)
  | jsf (j : Jsf)

section Machine

variable {B : Type} [BnOps B]

/-- A call that returns nothing else. -/
def done (act : BnM B Unit) : BnM B (Ret × Option B) := do
  act
  pure (.done, none)

/-- The function a call runs; the second result is the new content of another variable. -/
def Call.run (J : Junk) (arg : Nat → Arg B) (rem : Option Nat → Rem B) :
    Call → BnM B (Ret × Option B)
  | .init bits => done (bnInit bits)
  | .assign src => done (bnAssign (arg src))
  | .assignInit src => done (bnAssignInit (arg src))
  | .assignZero => done bnAssignZero
  | .assign2exp exp => done (bnAssign2exp exp)
  | .assignDigit digit h => done (bnAssignDigit digit h)
  | .importBeBin buf => done (bnImportBeBin buf)
  | .importLeBin buf => done (bnImportLeBin buf)
  | .importBeHex buf => done (bnImportBeHex buf)
  | .importLeHex buf => done (bnImportLeHex buf)
  | .bitSet bit val => done (bnBitSet bit val)
  | .isBitSet bit => do
    let bn ← get
    pure (.flag (bnIsBitSet bn bit), none)
  | .lShift bits => done (bnLShift bits)
  | .rShift bits => done (bnRShift bits)
  | .and n => done (bnAnd (arg n))
  | .or n => done (bnOr (arg n))
  | .xor n => done (bnXor (arg n))
  | .addDigit n => do
    let carry ← bnAddDigit n
    pure (.digit carry, none)
  | .add n => do
    let carry ← bnAdd (arg n)
    pure (.digit (some carry), none)
  | .subDigit n => do
    let borrow ← bnSubDigit n
    pure (.digit borrow, none)
  | .sub n => do
    let borrow ← bnSub (arg n)
    pure (.digit (some borrow), none)
  | .multDigit n => done (bnMultDigit J n)
  | .mult n => done (bnMult J (arg n))
  | .square => done (bnSquare J)
  | .div d r => do
    let rm ← bnDiv J (arg d) (rem r)
    pure (.done, rm)
  | .gcd a b => done (bnGcd J (arg a) (arg b))
  | .gcdBin a b => done (bnGcdBin J (arg a) (arg b))
  | .mod m => done (bnMod J (arg m))
  | .modAdd n m => done (bnModAdd (arg n) (arg m))
  | .modSub n m => done (bnModSub J (arg n) (arg m))
  | .modMult n m => done (bnModMult J (arg n) (arg m))
  | .modMultDigit n m => done (bnModMultDigit J n (arg m))
  | .modSquare m => done (bnModSquare J (arg m))
  | .modExpDigit exp m => done (bnModExpDigit J exp (arg m))
  | .modExp exp m => done (bnModExp J (arg exp) (arg m))
  | .modInv1 m => done (bnModInv1 J (arg m))
  | .modInv2 m => done (bnModInv2 J (arg m))
  | .modInvBin m => done (bnModInvBin J (arg m))
  | .modDivMont d m => done (bnModDivMont J (arg d) (arg m))
  | .modInvMont m => done (bnModInvMont J (arg m))
  | .modDiv d m => done (bnModDiv J (arg d) (arg m))
  | .modReduce m => done (bnModReduce J (arg m))
  | .modSmall m => done (bnModSmall (arg m))
  | .modLegendre m => do
    let bn ← get
    let r ← bnModLegendre J bn ((arg m).get bn)
    pure (.int r, none)
  | .modSqrt m => done (bnModSqrt J (arg m))
  | .calcNaf wndBits nafArrSize => do
    let bn ← get
    let items ← bnCalcNaf J bn wndBits nafArrSize
    pure (.items items, none)
  | .calcJsf b jsfArrSize => do
    let bn ← get
    match bnCalcJsf J bn ((arg b).get bn) jsfArrSize with
    | .ok j => pure (.jsf j, none)
    | .error e => throw e

/-- The variables. -/
abbrev Store (B : Type) := Nat → B

/-- Variable `j` as an argument of a call on variable `i`. -/
def Store.arg (st : Store B) (i j : Nat) : Arg B := if j = i then .self else .val (st j)

def Store.rem (st : Store B) (i : Nat) : Option Nat → Rem B
  | none => .null
  | some j => if j = i then .self else .other (st j)

/-- The variable a call writes besides `bn`. -/
def Call.remVar : Call → Option Nat
  | .div _ r => r
  | _ => none

/-- Stores the second result of a call. -/
def Call.store (c : Call) (st : Store B) (x : Option B) : Store B :=
  match c.remVar, x with
  | some j, some x => Function.update st j x
  | _, _ => st

/-- A call on variable `i`: what it returns and the variables after it, `none` if it has no defined
end. -/
def callStep (J : Junk) (st : Store B) (i : Nat) (c : Call) :
    Option (Except Err Ret × Store B) :=
  fold (c.run J (st.arg i) (st.rem i) (st i))
    (fun r bn => some (.ok r.1, c.store (Function.update st i bn) r.2))
    (fun e bn => if e.returned then some (.error e, Function.update st i bn) else none)

end Machine

/-! ## Calls commute with maps of numbers -/

section Hom

variable {B B' : Type} [BnOps B] [BnOps B'] (h : BnHom B B')

def Call.Sees (J : Junk) (arg : Nat → Arg B) (s : B) : Call → Prop
  | .isBitSet bit => bnIsBitSet (h s) bit = bnIsBitSet s bit
  | .calcJsf b jsfArrSize => bnCalcJsf (h.junk J) (h s) (h ((arg b).get s)) jsfArrSize =
      bnCalcJsf J s ((arg b).get s) jsfArrSize
  | _ => True

theorem done_hom {act : BnM B Unit} {act' : BnM B' Unit} {s : B}
    (hact : act' (h s) = mapRes h id (act s)) :
    done act' (h s) = mapRes h (Prod.map id (Option.map h)) (done act s) := by
  simp [done, hact]

theorem Call.run_hom (J : Junk) (arg : Nat → Arg B) (rem : Option Nat → Rem B) (s : B) (c : Call)
    (hc : c.Sees h J arg s) :
    c.run (h.junk J) (fun j => (arg j).map h) (fun r => (rem r).map h) (h s) =
      mapRes h (Prod.map id (Option.map h)) (c.run J arg rem s) := by
  cases c with
  | isBitSet bit =>
    have hbit : bnIsBitSet (h s) bit = bnIsBitSet s bit := hc
    simp [Call.run, hbit]
  | addDigit n => simp [Call.run]
  | add n => simp [Call.run]
  | subDigit n => simp [Call.run]
  | sub n => simp [Call.run]
  | div d r => simp [Call.run]
  | modLegendre m => simp [Call.run, bnModLegendre_hom h h.toFun]
  | calcNaf wndBits nafArrSize => simp [Call.run, bnCalcNaf_hom h h.toFun]
  | calcJsf b jsfArrSize =>
    have hjsf : bnCalcJsf (h.junk J) (h s) (h ((arg b).get s)) jsfArrSize =
      bnCalcJsf J s ((arg b).get s) jsfArrSize := hc
    simp only [Call.run, bind_apply, get_apply, fold_ok, Arg.get_map, hjsf]
    cases bnCalcJsf J s ((arg b).get s) jsfArrSize <;> rfl
  | gcd a b => exact done_hom h (bnGcd_hom h J (arg a) (arg b) s)
  | gcdBin a b => exact done_hom h (bnGcdBin_hom h J (arg a) (arg b) s)
  | modExpDigit exp m => exact done_hom h (bnModExpDigit_hom h J exp (arg m) s)
  | modInv1 m => exact done_hom h (bnModInv1_hom h J (arg m) s)
  | modInv2 m => exact done_hom h (bnModInv2_hom h J (arg m) s)
  | modInvMont m => exact done_hom h (bnModInvMont_hom h J (arg m) s)
  | modSmall m => exact done_hom h (bnModSmall_hom h (arg m) s)
  | _ =>
    apply done_hom
    simp

theorem Store.arg_hom (st : Store B) (i j : Nat) :
    Store.arg (fun k => h (st k)) i j = (st.arg i j).map h := by
  unfold Store.arg
  split <;> rfl

theorem Store.rem_hom (st : Store B) (i : Nat) (r : Option Nat) :
    Store.rem (fun k => h (st k)) i r = (st.rem i r).map h := by
  cases r with
  | none => rfl
  | some j =>
    simp only [Store.rem]
    split <;> rfl

theorem Store.update_hom (st : Store B) (i : Nat) (x : B) :
    Function.update (fun k => h (st k)) i (h x) = fun k => h (Function.update st i x k) := by
  funext k
  by_cases hk : k = i
  · rw [hk, Function.update_self, Function.update_self]
  · rw [Function.update_of_ne hk, Function.update_of_ne hk]

theorem Call.store_hom (c : Call) (st : Store B) (x : Option B) :
    c.store (fun k => h (st k)) (x.map h) = fun k => h (c.store st x k) := by
  unfold Call.store
  cases c.remVar with
  | none => rfl
  | some j =>
    cases x with
    | none => rfl
    | some y => exact Store.update_hom h st j y

theorem callStep_hom (J : Junk) (st : Store B) (i : Nat) (c : Call)
    (hc : c.Sees h J (st.arg i) (st i)) :
    callStep (h.junk J) (fun k => h (st k)) i c =
      (callStep J st i c).map (fun r => (r.1, fun k => h (r.2 k))) := by
  have harg : Store.arg (fun k => h (st k)) i = fun j => (st.arg i j).map h := by
    funext j
    exact Store.arg_hom h st i j
  have hrem : Store.rem (fun k => h (st k)) i = fun r => (st.rem i r).map h := by
    funext r
    exact Store.rem_hom h st i r
  unfold callStep
  rw [harg, hrem, Call.run_hom h J (st.arg i) (st.rem i) (st i) c hc, fold_mapRes]
  cases c.run J (st.arg i) (st.rem i) (st i) with
  | ok r bn =>
    simp only [fold_ok, Option.map_some, Prod.map, id]
    rw [Store.update_hom, Call.store_hom]
  | error e bn =>
    simp only [fold_error]
    rw [Store.update_hom]
    split <;> rfl

end Hom

/-! ## Runs of the code -/

/-- A step on records. -/
inductive Step where
  | call (i : Nat) (c : Call)
  | modInv3 (i m : Nat)

/-- What a step returns and the variables after it. -/
def step (J : Junk) (st : Store Bn) : Step → Option (Except Err Ret × Store Bn)
  | .call i c => callStep J st i c
  | .modInv3 i m =>
    fold (Bn.bnModInv3 J (st.arg i m) (st i))
      (fun _ bn => some (.ok .done, Function.update st i bn))
      (fun e bn => if e.returned then some (.error e, Function.update st i bn) else none)

/-- A run: the results of all steps and the variables at the end.  Step `n` finds the content `J n`
in its locals. -/
def run (J : Junk) : Nat → List Step → Store Bn → Option (List (Except Err Ret) × Store Bn)
  | _, [], st => some ([], st)
  | n, s :: steps, st => do
    let r ← step (J n) st s
    let q ← run J (n + 1) steps r.2
    pure (r.1 :: q.1, q.2)

theorem run_cons {J : Junk} {n : Nat} {s : Step} {steps : List Step} {st : Store Bn}
    {out : List (Except Err Ret)} {st' : Store Bn}
    (hrun : run J n (s :: steps) st = some (out, st')) :
    ∃ r q, step (J n) st s = some r ∧ run J (n + 1) steps r.2 = some q ∧ out = r.1 :: q.1 ∧
      st' = q.2 := by
  simp only [run, Option.bind_eq_bind, Option.bind_eq_some_iff, Option.pure_def,
    Option.some.injEq, Prod.mk.injEq] at hrun
  rcases hrun with ⟨r, hr, q, hq, hout, hst⟩
  exact ⟨r, q, hr, hq, hout.symm, hst.symm⟩

def wfStore (st : Store Bn) (hst : ∀ i, (st i).WF) : Store WfBn := fun i => ⟨st i, hst i⟩

theorem sees_bnHom (J : Junk) (arg : Nat → Arg WfBn) (s : WfBn) (c : Call) :
    c.Sees bnHom J arg s := by
  cases c with
  | isBitSet bit => exact rfl
  | calcJsf b jsfArrSize => exact rfl
  | _ => trivial

theorem step_wf {J : Junk} {st : Store Bn} (hst : ∀ i, (st i).WF) {s : Step}
    {r : Except Err Ret × Store Bn} (hstep : step J st s = some r) (i : Nat) : (r.2 i).WF := by
  cases s with
  | call k c =>
    -- the step is the image of a step on normalised records
    have himage := callStep_hom bnHom J (wfStore st hst) k c (sees_bnHom _ _ _ _)
    have hmap : step J st (.call k c) =
        (callStep J (wfStore st hst) k c).map (fun r => (r.1, fun j => (r.2 j).bn)) := himage
    rw [hstep] at hmap
    rcases Option.map_eq_some_iff.mp hmap.symm with ⟨q, -, hq⟩
    rw [← hq]
    exact (q.2 i).wf
  | modInv3 k m =>
    have harg : (st.arg k m).WF := by
      unfold Store.arg
      split
      · exact Bn.argWF_self
      · exact Bn.argWF_val (hst m)
    have hwf := Bn.bnModInv3_wf J harg (hst k)
    have hupdate : ∀ b : Bn, b.WF → (Function.update st k b i).WF := by
      intro b hb
      by_cases hik : i = k
      · rw [hik, Function.update_self]
        exact hb
      · rw [Function.update_of_ne hik]
        exact hst i
    simp only [step] at hstep
    cases hres : Bn.bnModInv3 J (st.arg k m) (st k) with
    | ok a b =>
      rw [hres] at hstep hwf
      rw [fold_ok, Option.some.injEq] at hstep
      rw [← hstep]
      exact hupdate b hwf
    | error e b =>
      rw [hres] at hstep hwf
      rw [fold_error] at hstep
      split at hstep
      · rw [Option.some.injEq] at hstep
        rw [← hstep]
        exact hupdate b hwf
      · cases hstep

theorem run_wf (J : Junk) (steps : List Step) :
    ∀ (n : Nat) (st : Store Bn), (∀ i, (st i).WF) → ∀ (out : List (Except Err Ret))
      (st' : Store Bn), run J n steps st = some (out, st') → ∀ i, (st' i).WF := by
  induction steps with
  | nil =>
    intro n st hst out st' hrun i
    simp only [run, Option.some.injEq, Prod.mk.injEq] at hrun
    rw [← hrun.2]
    exact hst i
  | cons s steps ih =>
    intro n st hst out st' hrun i
    rcases run_cons hrun with ⟨r, q, hr, hq, -, hst'⟩
    rw [hst']
    exact ih (n + 1) r.2 (step_wf hst hr) q.1 q.2 hq i

/-- A number on which `bn_init` has been called. -/
def Initialised (b : Bn) : Prop := ∃ bits mem, Bn.bnInit bits mem = .ok () b

theorem Initialised.wf {b : Bn} (h : Initialised b) : b.WF := by
  rcases h with ⟨bits, mem, hrun⟩
  unfold Bn.bnInit at hrun
  split at hrun
  · cases hrun
  · split at hrun
    · cases hrun
    · injection hrun with _ hb
      rw [← hb]
      exact ⟨Nat.zero_le _, by simp only; omega, Or.inl rfl⟩

/-- After any calls on initialised numbers, whether they succeed or fail, every number has at most
`count` digits, its capacity fits the array, and its top digit is not zero. -/
theorem run_normalised (J : Junk) (steps : List Step) (st : Store Bn)
    (hinit : ∀ i, Initialised (st i)) (out : List (Except Err Ret)) (st' : Store Bn)
    (hrun : run J 0 steps st = some (out, st')) (i : Nat) :
    (st' i).digits ≤ (st' i).count ∧ (st' i).count ≤ 32 ∧
      ((st' i).digits = 0 ∨ (st' i).dig ((st' i).digits - 1) ≠ 0) := by
  have hwf := run_wf J steps 0 st (fun j => (hinit j).wf) out st' hrun i
  exact ⟨hwf.digits_le, hwf.count_le, hwf.top⟩

/-- A number of two digits after `bn_init`. -/
def freshBn (mem : NumArray) : Bn := ⟨2, 0, mem⟩

theorem freshBn_initialised (mem : NumArray) : Initialised (freshBn mem) :=
  ⟨128, ⟨0, 0, mem⟩, rfl⟩

/-- A shift out of one digit, a copy, a product that does not fit and a difference of zero. -/
theorem run_normalised_overflow :
    ∃ out st', run blank 0 [.call 0 (.assign2exp 70), .call 1 (.assign 0), .call 0 (.mult 1),
        .call 0 (.sub 1)] (fun _ => freshBn blank.array) = some (out, st') ∧
      (st' 0).digits ≤ (st' 0).count ∧ (st' 0).count ≤ 32 ∧
        ((st' 0).digits = 0 ∨ (st' 0).dig ((st' 0).digits - 1) ≠ 0) := by
  have hsome : (run blank 0 [.call 0 (.assign2exp 70), .call 1 (.assign 0), .call 0 (.mult 1),
      .call 0 (.sub 1)] (fun _ => freshBn blank.array)).isSome = true := by
    decide +kernel
  rcases Option.isSome_iff_exists.mp hsome with ⟨⟨out, st'⟩, hrun⟩
  exact ⟨out, st', hrun,
    run_normalised blank _ _ (fun _ => freshBn_initialised blank.array) out st' hrun 0⟩

/-! ## Stale digits -/

/-- The array `1, 0, 0, ...`. -/
def staleOne : NumArray := ⟨1 :: List.replicate 31 0, rfl⟩

/-- Two records that differ in stale digits only. -/
def SameValue (b b' : Bn) : Prop :=
  b.count = b'.count ∧ b.digits = b'.digits ∧ b.value = b'.value

/-- Two runs that return the same and leave the same numbers. -/
def SameRun (r r' : Option (List (Except Err Ret) × Store Bn)) : Prop :=
  Option.Rel (fun q q' => q.1 = q'.1 ∧ ∀ i, SameValue (q.2 i) (q'.2 i)) r r'

theorem SameRun.outputs {r r' : Option (List (Except Err Ret) × Store Bn)} (h : SameRun r r') :
    r.map Prod.fst = r'.map Prod.fst := by
  cases h with
  | some hq => exact congrArg some hq.1
  | none => rfl

/-- The steps whose result does not depend on stale digits: `bn_is_bit_set` of a number with digits
or of a bit above the low digit, `bn_calc_jsf` of two numbers that are not zero, and every other
call but `bn_mod_inv3`, which exchanges a stale low digit. -/
def Step.Quiet (st : Store Bn) : Step → Prop
  | .call i (.isBitSet bit) => (st i).digits ≠ 0 ∨ 64 ≤ bit
  | .call i (.calcJsf b _) => (st i).digits ≠ 0 ∧ (st b).digits ≠ 0
  | .call _ _ => True
  | .modInv3 _ _ => False

/-- Every step of the run is quiet in the state it is taken in. -/
def QuietRun (J : Junk) : Nat → List Step → Store Bn → Prop
  | _, [], _ => True
  | n, s :: steps, st => s.Quiet st ∧ ∀ r, step (J n) st s = some r → QuietRun J (n + 1) steps r.2

theorem sig_ne_nil {b : WfBn} (h : b.bn.digits ≠ 0) : sig b ≠ [] := by
  intro hsig
  have hlen := b.wf.length_sig
  rw [show b.bn.sig = [] from hsig] at hlen
  exact h hlen.symm

theorem sees_valueHom {J : Junk} {st : Store WfBn} {i : Nat} {c : Call}
    (hq : (Step.call i c).Quiet (fun j => (st j).bn)) : c.Sees valueHom J (st.arg i) (st i) := by
  cases c with
  | isBitSet bit =>
    apply bnIsBitSet_hom valueHom
    rcases hq with hd | hbit
    · exact Or.inl (sig_ne_nil hd)
    · exact Or.inr hbit
  | calcJsf b jsfArrSize =>
    have hval : ∀ x : WfBn, x.bn.digits ≠ 0 → x.abs.val ≠ 0 :=
      fun x hx h0 => hx (x.wf.digits_eq_zero.mpr h0)
    have hget : ((st.arg i b).get (st i)).bn.digits ≠ 0 := by
      unfold Store.arg
      split
      · exact hq.1
      · exact hq.2
    show Num.bnCalcJsf blank (st i).abs ((st.arg i b).get (st i)).abs jsfArrSize =
      Bn.bnCalcJsf J (st i).bn ((st.arg i b).get (st i)).bn jsfArrSize
    rw [Bn.bnCalcJsf_refines J (st i).wf ((st.arg i b).get (st i)).wf]
    exact Num.bnCalcJsf_junk _ _ (hval _ hq.1) (hval _ hget) _
  | _ => trivial

theorem sameValue_of_abs {b b' : WfBn} (h : b.abs = b'.abs) : SameValue b.bn b'.bn := by
  have hval : b.bn.value = b'.bn.value := congrArg Num.val h
  refine ⟨congrArg Num.count h, ?_, hval⟩
  rw [b.wf.digits_eq, b'.wf.digits_eq, hval]

theorem SameValue.abs_eq {b b' : WfBn} (h : SameValue b.bn b'.bn) : b.abs = b'.abs := by
  show Num.mk _ _ = Num.mk _ _
  rw [h.1, h.2.2]

/-- A quiet step on numbers of the same values returns the same and leaves the same values. -/
theorem step_same (J J' : Junk) {st st' : Store Bn} (hst : ∀ i, (st i).WF)
    (hst' : ∀ i, (st' i).WF) (hsame : ∀ i, SameValue (st i) (st' i)) {s : Step}
    (hq : s.Quiet st) :
    Option.Rel (fun r r' => r.1 = r'.1 ∧ ∀ i, SameValue (r.2 i) (r'.2 i)) (step J st s)
      (step J' st' s) := by
  cases s with
  | modInv3 k m => exact absurd hq id
  | call k c =>
    have hq' : (Step.call k c).Quiet st' := by
      cases c with
      | isBitSet bit =>
        rcases hq with hd | hbit
        · exact Or.inl (by rw [← (hsame k).2.1]; exact hd)
        · exact Or.inr hbit
      | calcJsf b jsfArrSize =>
        exact ⟨by rw [← (hsame k).2.1]; exact hq.1, by rw [← (hsame b).2.1]; exact hq.2⟩
      | _ => trivial
    -- both steps have the same image under the map to values
    have himage := callStep_hom valueHom J (wfStore st hst) k c (sees_valueHom hq)
    have himage' := callStep_hom valueHom J' (wfStore st' hst') k c (sees_valueHom hq')
    have habs : (fun j => valueHom (wfStore st hst j)) =
        fun j => valueHom (wfStore st' hst' j) := by
      funext j
      exact (hsame j : SameValue (wfStore st hst j).bn (wfStore st' hst' j).bn).abs_eq
    rw [habs] at himage
    have hjunk : valueHom.junk J = valueHom.junk J' := rfl
    rw [hjunk, himage'] at himage
    -- and are the images of these steps under the map to records
    have hrec : step J st (.call k c) =
        (callStep J (wfStore st hst) k c).map (fun r => (r.1, fun j => (r.2 j).bn)) :=
      callStep_hom bnHom J (wfStore st hst) k c (sees_bnHom _ _ _ _)
    have hrec' : step J' st' (.call k c) =
        (callStep J' (wfStore st' hst') k c).map (fun r => (r.1, fun j => (r.2 j).bn)) :=
      callStep_hom bnHom J' (wfStore st' hst') k c (sees_bnHom _ _ _ _)
    rw [hrec, hrec']
    cases hr : callStep J (wfStore st hst) k c with
    | none =>
      rw [hr, Option.map_none, Option.map_eq_none_iff] at himage
      rw [himage]
      exact Option.Rel.none
    | some r =>
      rw [hr, Option.map_some, Option.map_eq_some_iff] at himage
      rcases himage with ⟨r', hr', heq⟩
      rw [hr']
      apply Option.Rel.some
      rw [Prod.mk.injEq] at heq
      refine ⟨heq.1.symm, ?_⟩
      intro j
      exact sameValue_of_abs (congrFun heq.2.symm j)

theorem rel_cases {α β : Type} {R : α → β → Prop} {x : Option α} {y : Option β}
    (h : Option.Rel R x y) :
    (x = none ∧ y = none) ∨ ∃ a b, x = some a ∧ y = some b ∧ R a b := by
  cases h with
  | none => exact .inl ⟨rfl, rfl⟩
  | some hab => exact .inr ⟨_, _, rfl, rfl, hab⟩

theorem run_same (J J' : Junk) (steps : List Step) :
    ∀ (n : Nat) (st st' : Store Bn), (∀ i, (st i).WF) → (∀ i, (st' i).WF) →
      (∀ i, SameValue (st i) (st' i)) → QuietRun J n steps st →
      SameRun (run J n steps st) (run J' n steps st') := by
  induction steps with
  | nil =>
    intro n st st' _ _ hsame _
    exact Option.Rel.some ⟨rfl, hsame⟩
  | cons s steps ih =>
    intro n st st' hst hst' hsame hq
    have hstep := step_same (J n) (J' n) hst hst' hsame hq.1
    unfold run
    rcases rel_cases hstep with ⟨hr, hr'⟩ | ⟨r, r', hr, hr', hrr⟩
    · rw [hr, hr']
      exact Option.Rel.none
    · rw [hr, hr', Option.bind_eq_bind, Option.bind_some, Option.bind_eq_bind, Option.bind_some]
      -- the rest of the run starts from numbers of the same values again
      have hrest := ih (n + 1) r.2 r'.2 (step_wf hst hr) (step_wf hst' hr') hrr.2 (hq.2 r hr)
      rcases rel_cases hrest with ⟨hq1, hq2⟩ | ⟨q, q', hq1, hq2, hqq⟩
      · rw [hq1, hq2]
        exact Option.Rel.none
      · rw [hq1, hq2]
        exact Option.Rel.some ⟨by rw [hrr.1, hqq.1], hqq.2⟩

/-- Runs that start quietly: the general statement at the first step. -/
theorem quietRun_staleIndependent (J J' : Junk) (steps : List Step) (st st' : Store Bn)
    (hst : ∀ i, (st i).WF) (hst' : ∀ i, (st' i).WF) (hsame : ∀ i, SameValue (st i) (st' i))
    (hquiet : QuietRun J 0 steps st) : SameRun (run J 0 steps st) (run J' 0 steps st') :=
  run_same J J' steps 0 st st' hst hst' hsame hquiet

/-- Two runs that test a bit of one and multiply it, over clean and over stale memory. -/
theorem quietRun_staleIndependent_bit :
    SameRun
      (run blank 0 [.call 0 (.assignDigit 6 (by decide)), .call 0 (.isBitSet 1), .call 0 .square]
        (fun _ => freshBn blank.array))
      (run blank 0 [.call 0 (.assignDigit 6 (by decide)), .call 0 (.isBitSet 1), .call 0 .square]
        (fun _ => freshBn staleOne)) := by
  apply quietRun_staleIndependent
  · exact fun _ => (freshBn_initialised _).wf
  · exact fun _ => (freshBn_initialised _).wf
  · exact fun _ => ⟨rfl, rfl, rfl⟩
  · refine ⟨trivial, ?_⟩
    intro r hr
    refine ⟨Or.inl ?_, fun q _ => ⟨trivial, fun _ _ => trivial⟩⟩
    have hdigits : (step (blank 0) (fun _ => freshBn blank.array)
        (.call 0 (.assignDigit 6 (by decide)))).map (fun r => (r.2 0).digits) = some 1 := rfl
    rw [hr, Option.map_some, Option.some.injEq] at hdigits
    rw [hdigits]
    decide

/-- What a run returns and the values it leaves are the same for all stale digits and all contents
of the locals. -/
def StaleIndependent : Prop :=
  ∀ (J J' : Junk) (steps : List Step) (st st' : Store Bn), (∀ i, (st i).WF) → (∀ i, (st' i).WF) →
    (∀ i, SameValue (st i) (st' i)) → SameRun (run J 0 steps st) (run J' 0 steps st')

/-- `bn_is_bit_set(bn, 0)` of a zero tells apart what is left in `num[0]`. -/
theorem not_staleIndependent : ¬ StaleIndependent := by
  intro h
  have hsame : SameValue (freshBn blank.array) (freshBn staleOne) := ⟨rfl, rfl, rfl⟩
  have hrun := h blank blank [.call 0 (.isBitSet 0)] (fun _ => freshBn blank.array)
    (fun _ => freshBn staleOne) (fun _ => (freshBn_initialised _).wf)
    (fun _ => (freshBn_initialised _).wf) (fun _ => hsame)
  have hout := hrun.outputs
  have hzero : (run blank 0 [.call 0 (.isBitSet 0)] (fun _ => freshBn blank.array)).map Prod.fst =
      some [.ok (.flag false)] := rfl
  have hone : (run blank 0 [.call 0 (.isBitSet 0)] (fun _ => freshBn staleOne)).map Prod.fst =
      some [.ok (.flag true)] := rfl
  rw [hzero, hone] at hout
  cases hout

end BigNum
