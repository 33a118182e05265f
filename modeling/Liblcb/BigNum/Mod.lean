import Liblcb.BigNum.Ops

/-!
# Number theory

The greatest common divisor and the modular functions of `math/big_num.h`, built on the operations
of `BnOps`.  The reduction is the default one, a division.  Loops without a bound of their own run
on fuel that no terminating run uses up; `noReturn` marks a run that goes on.
-/

namespace BigNum

open Limbs StateErr BnOps

variable {B : Type} [BnOps B] {σ : Type}

/-- More rounds than any loop below makes before it ends: their measures are numbers of at most
2048 bits. -/
@[irreducible] def loopFuel : Nat := 2 ^ 8192

def bnAssign2exp (exp : Nat) : BnM B Unit := do
  bnAssignZero
  bnBitSet exp true

def bnSquare (J : Junk) : BnM B Unit := bnMult J .self

/-- Runs `act` through a pointer: `.self` is `bn`, anything else a local with that content. -/
def onPtr {α : Type} (p : Arg B) (act : BnM B α) : BnM B (Arg B) :=
  match p with
  | .self => do
    let _ ← act
    pure .self
  | .val x => do
    let x ← exec x act
    pure (.val x)

/-- `*p = x`. -/
def storePtr (p : Arg B) (x : B) : BnM B (Arg B) :=
  match p with
  | .self => do
    set x
    pure .self
  | .val _ => pure (.val x)

/-! ## Greatest common divisor -/

/-- The loop of `bn_gcd`; the result is where `ta` points to. -/
def gcdLoop (J : Junk) : Nat → Arg B → Arg B → BnM B (Arg B)
  | 0, _, _ => throw .noReturn
  | fuel + 1, ta, tb => do
    let bn ← get
    if bnIsZero (tb.get bn) then pure ta
    else do
      let ta ← onPtr ta (bnDiv (J fuel) (.val (tb.get bn)) .self)
      gcdLoop J fuel tb ta

def bnGcd (J : Junk) (a b : Arg B) : BnM B Unit := do
  let bn ← get
  if bnIsZero (a.get bn) then bnAssign b
  else if bnIsZero (b.get bn) then bnAssign a
  else if bnCmp (a.get bn) (b.get bn) = .eq then bnAssign a
  else if bnCmp (a.get bn) (b.get bn) = .lt then do
    let tb ← exec (uninit (J 0)) (bnAssignInit (.val (a.get bn)))
    bnAssignInit b
    let ta ← gcdLoop (J 1) loopFuel .self (.val tb)
    bnAssign ta
  else do
    bnAssignInit a
    -- `b` is read after `bn` is written
    let bn ← get
    let tb ← exec (uninit (J 0)) (bnAssignInit (.val (b.get bn)))
    let ta ← gcdLoop (J 1) loopFuel .self (.val tb)
    bnAssign ta

/-- The loop of `bn_gcd_bin`; the result is where `ta` points to. -/
def gcdBinLoop : Nat → Nat → Arg B → Arg B → BnM B (Arg B)
  | 0, _, _, _ => throw .noReturn
  | fuel + 1, shiftB, ta, tb => do
    let bn ← get
    if bnIsZero (tb.get bn) then pure ta
    else do
      let tb ← onPtr tb (bnRShift shiftB)
      let bn ← get
      if bnCmp (ta.get bn) (tb.get bn) = .gt then do
        let ta ← onPtr ta (bnSub (.val (tb.get bn)))
        let bn ← get
        gcdBinLoop fuel (bnCtz (ta.get bn)) tb ta
      else do
        let tb ← onPtr tb (bnSub (.val (ta.get bn)))
        let bn ← get
        gcdBinLoop fuel (bnCtz (tb.get bn)) ta tb

def bnGcdBin (J : Junk) (a b : Arg B) : BnM B Unit := do
  let bn ← get
  if bnIsZero (a.get bn) then bnAssign b
  else if bnIsZero (b.get bn) then bnAssign a
  else if bnCmp (a.get bn) (b.get bn) = .eq then bnAssign a
  else do
    bnAssignInit a
    let bn ← get
    let tb ← exec (uninit (J 0)) (bnAssignInit (.val (b.get bn)))
    let shiftA := bnCtz bn
    let shiftB := bnCtz tb
    bnRShift shiftA
    let ta ← gcdBinLoop loopFuel shiftB .self (.val tb)
    bnAssign ta
    bnLShift (min shiftA shiftB)

/-! ## Modular arithmetic -/

def bnMod (J : Junk) (m : Arg B) : BnM B Unit := do
  let _ ← bnDiv J m .self
  pure ()

def bnModAdd (n m : Arg B) : BnM B Unit := do
  let _ ← bnAdd n
  let bn ← get
  onlyIf (bnCmp bn (m.get bn) ≠ .lt) do
    let _ ← bnSub m
    pure ()

def bnModSub (J : Junk) (n m : Arg B) : BnM B Unit := do
  let bn ← get
  onlyIf (bnCmp bn (n.get bn) = .lt) do
    let _ ← bnAdd m
    pure ()
  let _ ← bnSub n
  bnMod J m

def bnModMult (J : Junk) (n m : Arg B) : BnM B Unit := do
  bnMult (J 0) n
  bnMod (J 1) m

def bnModMultDigit (J : Junk) (n : Digit) (m : Arg B) : BnM B Unit := do
  bnMultDigit (J 0) n
  bnMod (J 1) m

def bnModSquare (J : Junk) (m : Arg B) : BnM B Unit := bnModMult J .self m

/-- The loop of `bn_mod_exp_digit`; `exp` is a `size_t`. -/
def expDigitLoop (J : Junk) (m : Arg B) : Nat → Nat → B → BnM B Unit
  | 0, _, _ => pure ()
  | fuel + 1, exp, base =>
    if exp = 0 then pure ()
    else do
      onlyIf (exp % 2 = 1) (bnModMult (J (2 * fuel)) (.val base) m)
      let bn ← get
      let base ← exec base (bnModMult (J (2 * fuel + 1)) .self (.val (m.get bn)))
      expDigitLoop J m fuel (exp / 2) base

def bnModExpDigit (J : Junk) (exp : Nat) (m : Arg B) : BnM B Unit := do
  let bn ← get
  if count bn < count (m.get bn) ∨ count bn < digits bn * 2 then throw .eoverflow
  else if exp = 0 then bnAssignDigit 1 (by decide)
  else if exp = 1 then pure ()
  else if exp = 2 then bnModMult (J 0) .self m
  else if exp = 3 then do
    let base ← exec (uninit (J 1)) (bnAssignInit (.val bn))
    let base ← exec base (bnModMult (J 2) (.val bn) (.val (m.get bn)))
    bnModMult (J 3) (.val base) m
  else if digits bn = 1 ∧ (lowDigit bn = 0 ∨ lowDigit bn = 1) then pure ()
  else do
    let base ← exec (uninit (J 1)) (bnAssignInit (.val bn))
    bnAssignDigit 1 (by decide)
    expDigitLoop (J 4) m 64 exp base

/-- The loop of `bn_mod_exp` from bit `i` on, with `n` bits left. -/
def expLoop (J : Junk) (exp m : Arg B) : Nat → Nat → B → BnM B Unit
  | 0, _, _ => pure ()
  | n + 1, i, base => do
    let bn ← get
    onlyIf (bnIsBitSet (exp.get bn) i) (bnModMult (J (2 * i)) (.val base) m)
    let bn ← get
    let base ← exec base (bnModMult (J (2 * i + 1)) .self (.val (m.get bn)))
    expLoop J exp m n (i + 1) base

def bnModExp (J : Junk) (exp m : Arg B) : BnM B Unit := do
  let bn ← get
  if count bn < count (m.get bn) then throw .eoverflow
  else if digits (exp.get bn) = 1 ∧ lowDigit (exp.get bn) = 0 then bnAssignDigit 1 (by decide)
  else if digits (exp.get bn) = 1 ∧ lowDigit (exp.get bn) = 1 then pure ()
  else if digits (exp.get bn) = 1 ∧ lowDigit (exp.get bn) = 2 then bnModMult (J 0) .self m
  else if count bn < digits bn * 2 then throw .eoverflow
  else if digits bn = 1 ∧ (lowDigit bn = 0 ∨ lowDigit bn = 1) then pure ()
  else do
    let base ← exec (uninit (J 1)) (bnAssignInit (.val bn))
    bnAssignDigit 1 (by decide)
    let bn ← get
    expLoop (J 2) exp m (bnCalcBits (exp.get bn)) 0 base

/-! ## Inverses -/

/-- The test the inversions start with. -/
def invArgsBad (bn m : B) : Bool := bnIsZero bn || bnIsZero m || bnCmp bn m != .lt

/-- Capacity of the locals of the inversions. -/
def invBits (bn m : B) : Nat := (4 + max (digits bn) (digits m)) * 64

/-- The numbers the loop of `bn_mod_inv1` works on. -/
structure Inv1 (B : Type) where
  q : B
  t1 : B
  t3 : B
  u1 : B
  u3 : B
  v1 : B
  v3 : B
  w : B

/-- The loop of `bn_mod_inv1`; the result is `u1` and whether its sign is negative. -/
def inv1Loop (J : Junk) : Nat → Inv1 B → Bool → EStateM Err σ (B × Bool)
  | 0, _, _ => throw .noReturn
  | fuel + 1, x, neg =>
    if bnIsZero x.v3 then pure (x.u1, neg)
    else do
      let q ← exec x.q (bnAssign (.val x.u3))
      let r ← runOn q (bnDiv (J (2 * fuel)) (.val x.v3) (.other x.t3))
      let q := r.2
      let t3 := r.1.getD x.t3
      let w ← exec x.w (bnAssign (.val q))
      let w ← exec w (bnMult (J (2 * fuel + 1)) (.val x.v1))
      let t1 ← exec x.t1 (bnAssign (.val x.u1))
      let t1 ← exec t1 (bnAdd (.val w))
      let u1 ← exec x.u1 (bnAssign (.val x.v1))
      let v1 ← exec x.v1 (bnAssign (.val t1))
      let u3 ← exec x.u3 (bnAssign (.val x.v3))
      let v3 ← exec x.v3 (bnAssign (.val t3))
      inv1Loop J fuel ⟨q, t1, t3, u1, u3, v1, v3, w⟩ (!neg)

def bnModInv1 (J : Junk) (m : Arg B) : BnM B Unit := do
  let bn ← get
  if invArgsBad bn (m.get bn) then throw .einval
  else do
    let bits := invBits bn (m.get bn)
    let q ← exec (uninit (J 0)) (bnInit bits)
    let t1 ← exec (uninit (J 1)) (bnInit bits)
    let t3 ← exec (uninit (J 2)) (bnInit bits)
    let u1 ← exec (uninit (J 3)) (bnInit bits)
    let u3 ← exec (uninit (J 4)) (bnInit bits)
    let v1 ← exec (uninit (J 5)) (bnInit bits)
    let v3 ← exec (uninit (J 6)) (bnInit bits)
    let w ← exec (uninit (J 7)) (bnInit bits)
    let u1 ← exec u1 (bnAssignDigit 1 (by decide))
    let v1 ← exec v1 bnAssignZero
    let u3 ← exec u3 (bnAssign (.val bn))
    let v3 ← exec v3 (bnAssign (.val (m.get bn)))
    let r ← inv1Loop (J 8) loopFuel ⟨q, t1, t3, u1, u3, v1, v3, w⟩ false
    if r.2 then do
      bnAssign m
      let _ ← bnSub (.val r.1)
      pure ()
    else bnAssign (.val r.1)

/-- The loop of `bn_mod_inv2`: the pointers `pu`, `pv`, `pr` rotate and one of them is `bn`; the
result is `pd2`. -/
def inv2Loop (J : Junk) (m : B) : Nat → (pu pv pr : Arg B) → (q d d1 d2 : B) → BnM B B
  | 0, _, _, _, _, _, _, _ => throw .noReturn
  | fuel + 1, pu, pv, pr, q, d, d1, d2 => do
    let bn ← get
    if bnIsZero (pv.get bn) then pure d2
    else do
      let q ← exec q (bnAssign (.val (pu.get bn)))
      let r ← runOn q (bnDiv (J (3 * fuel)) (.val (pv.get bn)) (.other (pr.get bn)))
      let q := r.2
      let pr ← storePtr pr (r.1.getD (pr.get bn))
      let q ← exec q (bnModMult (J (3 * fuel + 1)) (.val d1) (.val m))
      let d ← exec d (bnAssign (.val d2))
      let d ← exec d (bnModSub (J (3 * fuel + 2)) (.val q) (.val m))
      inv2Loop J m fuel pv pr pu q d2 d d1

def bnModInv2 (J : Junk) (m : Arg B) : BnM B Unit := do
  let bn ← get
  if invArgsBad bn (m.get bn) then throw .einval
  else do
    let bits := invBits bn (m.get bn)
    let r ← exec (uninit (J 0)) (bnInit bits)
    let q ← exec (uninit (J 1)) (bnInit bits)
    let d ← exec (uninit (J 2)) (bnInit bits)
    let d1 ← exec (uninit (J 3)) (bnInit bits)
    let d2 ← exec (uninit (J 4)) (bnInit bits)
    let u ← exec (uninit (J 5)) (bnInit bits)
    let u ← exec u (bnAssign (.val (m.get bn)))
    let d2 ← exec d2 bnAssignZero
    let d1 ← exec d1 (bnAssignDigit 1 (by decide))
    let d2 ← inv2Loop (J 6) (m.get bn) loopFuel (.val u) .self (.val r) q d d1 d2
    bnAssign (.val d2)

/-- `x = x / 2 mod m` as the inversions do it; zero is not even, so it becomes `m >> 1`. -/
def halfMod (m : B) : BnM B Unit := do
  let x ← get
  onlyIf (bnIsEven x = false) do
    let _ ← bnAdd (.val m)
    pure ()
  bnRShift 1

/-- A loop of `bn_mod_inv_bin` that takes the factors 2 out of `u`. -/
def invHalve (m : B) : Nat → B → B → EStateM Err σ (B × B)
  | 0, _, _ => throw .noReturn
  | fuel + 1, u, x =>
    if bnIsEven u then do
      let u ← exec u (bnRShift 1)
      let x ← exec x (halfMod m)
      invHalve m fuel u x
    else pure (u, x)

/-- The loop of `bn_mod_inv_bin`; the result is the number to be assigned. -/
def invBinLoop (J : Junk) (m : B) : Nat → (u v x1 x2 : B) → EStateM Err σ B
  | 0, _, _, _, _ => throw .noReturn
  | fuel + 1, u, v, x1, x2 =>
    if bnIsOne u then pure x1
    else if bnIsOne v then pure x2
    else do
      let a ← invHalve m loopFuel u x1
      let b ← invHalve m loopFuel v x2
      if bnCmp a.1 b.1 ≠ .lt then do
        let u ← exec a.1 (bnModSub (J (2 * fuel)) (.val b.1) (.val m))
        let x1 ← exec a.2 (bnModSub (J (2 * fuel + 1)) (.val b.2) (.val m))
        invBinLoop J m fuel u b.1 x1 b.2
      else do
        let v ← exec b.1 (bnModSub (J (2 * fuel)) (.val a.1) (.val m))
        let x2 ← exec b.2 (bnModSub (J (2 * fuel + 1)) (.val a.2) (.val m))
        invBinLoop J m fuel a.1 v a.2 x2

def bnModInvBin (J : Junk) (m : Arg B) : BnM B Unit := do
  let bn ← get
  if invArgsBad bn (m.get bn) then throw .einval
  else do
    let bits := invBits bn (m.get bn)
    let u ← exec (uninit (J 0)) (bnInit bits)
    let v ← exec (uninit (J 1)) (bnInit bits)
    let x1 ← exec (uninit (J 2)) (bnInit bits)
    let x2 ← exec (uninit (J 3)) (bnInit bits)
    let u ← exec u (bnAssign (.val bn))
    let v ← exec v (bnAssign (.val (m.get bn)))
    let x1 ← exec x1 (bnAssignDigit 1 (by decide))
    let r ← invBinLoop (J 4) (m.get bn) loopFuel u v x1 x2
    bnAssign (.val r)

def bnModInv (J : Junk) (m : Arg B) : BnM B Unit := bnModInvBin J m

/-- A number that is made `x - y mod m` and halved in `bn_mod_div_mont`. -/
def subHalfMod (m y : B) : BnM B Unit := do
  let x ← get
  onlyIf (bnCmp x y = .lt) do
    let _ ← bnAdd (.val m)
    pure ()
  let _ ← bnSub (.val y)
  halfMod m

/-- The loop of `bn_mod_div_mont`. -/
def divMontLoop (m : B) : Nat → (v a b : B) → BnM B Unit
  | 0, _, _, _ => throw .noReturn
  | fuel + 1, v, a, b =>
    if bnCmp a b = .eq then pure ()
    else if bnIsEven a then do
      let a ← exec a (bnRShift 1)
      halfMod m
      divMontLoop m fuel v a b
    else if bnIsEven b then do
      let b ← exec b (bnRShift 1)
      let v ← exec v (halfMod m)
      divMontLoop m fuel v a b
    else if bnCmp a b = .gt then do
      let a ← exec a (bnSub (.val b))
      let a ← exec a (bnRShift 1)
      subHalfMod m v
      divMontLoop m fuel v a b
    else do
      let b ← exec b (bnSub (.val a))
      let b ← exec b (bnRShift 1)
      let bn ← get
      let v ← exec v (subHalfMod m bn)
      divMontLoop m fuel v a b

/-- `bn_mod_div_mont`.  With `m` equal to `bn` the first test fails; `d` is read before `bn`
changes. -/
def bnModDivMont (J : Junk) (d m : Arg B) : BnM B Unit := do
  let bn ← get
  if invArgsBad bn (m.get bn) then throw .einval
  else do
    let bits := invBits bn (m.get bn)
    let v ← exec (uninit (J 0)) (bnInit bits)
    let a ← exec (uninit (J 1)) (bnInit bits)
    let b ← exec (uninit (J 2)) (bnInit bits)
    let a ← exec a (bnAssign (.val (d.get bn)))
    let b ← exec b (bnAssign (.val (m.get bn)))
    divMontLoop (m.get bn) loopFuel v a b

def bnModInvMont (J : Junk) (m : Arg B) : BnM B Unit := do
  let bn ← get
  let tm ← exec (uninit (J 0)) (bnInit ((1 + max (digits bn) (digits (m.get bn))) * 64))
  let tm ← exec tm (bnAssignDigit 1 (by decide))
  let tm ← exec tm (bnModDivMont (J 1) (.val bn) (.val (m.get bn)))
  bnAssign (.val tm)

def bnModDiv (J : Junk) (d m : Arg B) : BnM B Unit := do
  let bn ← get
  let tmp ← exec (uninit (J 0)) (bnAssignInit (.val (d.get bn)))
  let tmp ← exec tmp (bnModInv (J 1) (.val (m.get bn)))
  bnModMult (J 2) (.val tmp) m

/-! ## Other reductions -/

/-- `bn_mod_reduce`: `(bn mod (m - 1)) + 1` for `bn >= m`. -/
def bnModReduce (J : Junk) (m : Arg B) : BnM B Unit := do
  let bn ← get
  if bnCmp bn (m.get bn) = .lt then pure ()
  else do
    let tmp ← exec (uninit (J 0)) (bnAssignInit (.val (m.get bn)))
    let tmp ← exec tmp (bnSubDigit 1)
    bnMod (J 1) (.val tmp)
    let _ ← bnAddDigit 1
    pure ()

/-- The loop of `bn_mod_small`. -/
def smallLoop (m : Arg B) : Nat → BnM B Unit
  | 0 => throw .noReturn
  | fuel + 1 => do
    let bn ← get
    if bnCmp bn (m.get bn) = .gt then do
      let _ ← bnSub m
      smallLoop m fuel
    else pure ()

def bnModSmall (m : Arg B) : BnM B Unit := smallLoop m loopFuel

/-! ## Square roots -/

/-- `bn_mod_legendre`; the result is its return value when it is not an error code. -/
def bnModLegendre (J : Junk) (bn m : B) : EStateM Err σ Int :=
  if bnIsOdd m then do
    let a ← exec (uninit (J 0)) (bnAssignInit (.val bn))
    let a ← exec a (bnMod (J 1) (.val m))
    if bnIsZero a then pure 0
    else if bnIsOne a then pure 1
    else do
      let tm ← exec (uninit (J 2)) (bnAssignInit (.val m))
      let tm ← exec tm (bnSubDigit 1)
      let tm2 ← exec (uninit (J 3)) (bnAssignInit (.val tm))
      let tm2 ← exec tm2 (bnRShift 1)
      let a ← exec a (bnModExp (J 4) (.val tm2) (.val m))
      pure (if bnCmp tm a = .eq then -1 else if bnIsZero a then 0 else 1)
  else throw .einval

/-- `-1 == bn_mod_legendre(...)`: an error code is not -1. -/
def isNonresidue (J : Junk) (bn m : B) : EStateM Err σ Bool := fun s =>
  fold (bnModLegendre J bn m s) (fun r s => .ok (r == -1) s)
    (fun e s => if e.returned then .ok false s else .error e s)

/-- The search for a nonresidue in `bn_mod_sqrt`: the final `tm` and the number found, `none` when
`bits` has come down to 0. -/
def nonresidueLoop (J : Junk) (m : B) : Nat → B → B → EStateM Err σ (Option (B × B))
  | 0, _, _ => pure none
  | bits + 1, tm, b => do
    let tm ← exec tm (bnRShift 1)
    let b ← exec b (bnXor (.val tm))
    let found ← isNonresidue (J bits) b m
    if found then pure (some (tm, b)) else nonresidueLoop J m bits tm b

/-- The loop of `bn_mod_sqrt` over the powers of 2 in `m - 1`. -/
def tonelliLoop (J : Junk) (m tm2 bnInv : B) : Nat → (tm t b : B) → BnM B Unit
  | 0, _, _, _ => pure ()
  | bits + 1, tm, t, b => do
    let tm ← exec tm (bnAssign2exp bits)
    let bn ← get
    let t ← exec t (bnAssign (.val bn))
    let t ← exec t (bnModSquare (J (5 * bits)) (.val m))
    let t ← exec t (bnModMult (J (5 * bits + 1)) (.val bnInv) (.val m))
    let t ← exec t (bnModExp (J (5 * bits + 2)) (.val tm) (.val m))
    onlyIf (bnCmp t tm2 = .eq) (bnModMult (J (5 * bits + 3)) (.val b) (.val m))
    let b ← exec b (bnModSquare (J (5 * bits + 4)) (.val m))
    tonelliLoop J m tm2 bnInv bits tm t b

/-- `bn_mod_sqrt` for `m mod 4 == 3`. -/
def sqrt34 (J : Junk) (m : B) : BnM B Unit := do
  let tm ← exec (uninit (J 0)) (bnAssignInit (.val m))
  let tm ← exec tm (bnAddDigit 1)
  let tm ← exec tm (bnRShift 2)
  bnModExp (J 1) (.val tm) (.val m)

/-- `bn_mod_sqrt` for `m mod 8 == 5`. -/
def sqrt58 (J : Junk) (m : B) : BnM B Unit := do
  let bn ← get
  let tm2 ← exec (uninit (J 0)) (bnAssignInit (.val m))
  let tm2 ← exec tm2 (bnRShift 3)
  let tm ← exec (uninit (J 1)) (bnAssignInit (.val bn))
  let tm ← exec tm (bnModMultDigit (J 2) 2 (.val m))
  let tm ← exec tm (bnModExp (J 3) (.val tm2) (.val m))
  let tm2 ← exec tm2 (bnAssignInit (.val bn))
  let tm2 ← exec tm2 (bnModMultDigit (J 4) 2 (.val m))
  let tm2 ← exec tm2 (bnModMult (J 5) (.val tm) (.val m))
  let tm2 ← exec tm2 (bnModMult (J 6) (.val tm) (.val m))
  let tm2 ← exec tm2 (bnSubDigit 1)
  bnModMult (J 7) (.val tm) (.val m)
  bnModMult (J 8) (.val tm2) (.val m)

/-- `bn_mod_sqrt` for `m mod 8 == 1`. -/
def sqrtTonelli (J : Junk) (m : B) : BnM B Unit := do
  let bn ← get
  let bits := 64 + max (digits bn) (digits m) * 2 * 64
  let tm ← exec (uninit (J 0)) (bnInit bits)
  let b ← exec (uninit (J 1)) (bnInit bits)
  let t ← exec (uninit (J 2)) (bnInit bits)
  let b ← exec b (bnAssign (.val bn))
  let tm ← exec tm (bnAssign (.val m))
  let found ← nonresidueLoop (J 3) m (bnCalcBits b) tm b
  let r ← orThrow (.code (-1)) found
  let tm2 ← exec (uninit (J 4)) (bnAssignInit (.val m))
  let tm2 ← exec tm2 (bnSubDigit 1)
  let tm ← exec r.1 (bnAssign2exp (bnCtz tm2))
  let t ← exec t (bnAssign (.val tm2))
  let t ← exec t (bnDiv (J 5) (.val tm) .null)
  let b ← exec r.2 (bnModExp (J 6) (.val t) (.val m))
  let bnInv ← exec (uninit (J 7)) (bnAssignInit (.val bn))
  let bnInv ← exec bnInv (bnModInv (J 8) (.val m))
  let t ← exec t (bnAddDigit 1)
  let t ← exec t (bnRShift 1)
  bnModExp (J 9) (.val t) (.val m)
  -- `bits` runs from `bn_ctz(tm2)` down to 2 and the exponent is `bits - 2`
  tonelliLoop (J 10) m tm2 bnInv (bnCtz tm2 - 1) tm t b

/-- `bn_mod_sqrt`.  An `m` that is `bn` itself is reduced to zero by the first step. -/
def bnModSqrt (J : Junk) (m : Arg B) : BnM B Unit := do
  let bn ← get
  if bnIsOdd (m.get bn) then do
    bnMod (J 0) m
    let bn ← get
    if bnIsZero bn || bnIsOne bn then pure ()
    else do
      let m := m.get bn
      let neg ← isNonresidue (J 1) bn m
      if neg then throw (.code (-1))
      else do
        let orig ← exec (uninit (J 2)) (bnAssignInit (.val bn))
        if lowDigit m &&& 3 = 3 then sqrt34 (J 3) m
        else if lowDigit m &&& 7 = 5 then sqrt58 (J 3) m
        else if lowDigit m &&& 3 = 1 then sqrtTonelli (J 3) m
        else throw (.code (-1))
        let bn ← get
        let tm ← exec (uninit (J 4)) (bnAssignInit (.val bn))
        let tm ← exec tm (bnModSquare (J 5) (.val m))
        if bnCmp tm orig = .eq then pure () else throw (.code (-1))
  else throw .einval

end BigNum
