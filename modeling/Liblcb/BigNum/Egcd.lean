import Liblcb.BigNum.Mod
import Liblcb.BigNum.RefineDiv

/-!
# Extended Euclid and the inversion built on it

`bn_egcd` exchanges `num[0]` of two numbers without looking at their `digits`, so it is modelled on
records only.  Its one caller `bn_mod_inv3` gives it three locals, with `a` and `b` apart from them.
-/

namespace BigNum

open Limbs StateErr BnOps

namespace Bn

/-- One of the pairs `x`, `x_prev` and `y`, `y_prev`: what the two pointers point to, and whether
they have been exchanged an odd number of times. -/
structure EgcdPair where
  cur : Bn
  prev : Bn
  swapped : Bool

/-- The update of a pair in the loop of `bn_egcd`; the result is `t` and the pair. -/
def EgcdPair.step {σ : Type} (J : Junk) (q t : Bn) (p : EgcdPair) : EStateM Err σ (Bn × EgcdPair) := do
  let t ← exec t (bnAssign (.val q))
  let t ← exec t (bnMult J (.val p.cur))
  let prev ← exec p.prev (bnAdd (.val t))
  pure (t, ⟨prev, p.cur, !p.swapped⟩)

/-- The final `bn_assign(ax, x_prev)`, which does nothing if the pointers are equal. -/
def EgcdPair.result {σ : Type} (p : EgcdPair) : EStateM Err σ Bn :=
  if p.swapped then pure p.prev else exec p.cur (bnAssign (.val p.prev))

/-- The loop of `bn_egcd`; the result is where `ta` points to and the two pairs. -/
def egcdLoop (J : Junk) : Nat → (ta tb : Arg Bn) → (q t : Bn) → (x y : EgcdPair) →
    BnM Bn (Arg Bn × EgcdPair × EgcdPair)
  | 0, _, _, _, _, _, _ => throw .noReturn
  | fuel + 1, ta, tb, q, t, x, y => do
    let bn ← get
    if bnIsZero (tb.get bn) then pure (ta, x, y)
    else do
      let q ← exec q (bnAssign (.val (ta.get bn)))
      let r ← runOn q (bnDiv (J (3 * fuel)) (.val (tb.get bn)) (.other (ta.get bn)))
      let ta ← storePtr ta (r.1.getD (ta.get bn))
      let x ← x.step (J (3 * fuel + 1)) r.2 t
      let y ← y.step (J (3 * fuel + 2)) r.2 x.1
      egcdLoop J fuel tb ta r.2 y.1 x.2 y.2

/-- `bn_egcd` from the loop on. -/
def egcdMain (J : Junk) (tb : Bn) (x y : EgcdPair) : BnM Bn (Bn × Bn) := do
  let bn ← get
  let q ← exec (uninit (J 0)) (bnInit ((bn.count + 1) * 64))
  let t ← exec (uninit (J 1)) (bnInit (2 * q.count * 64))
  let r ← egcdLoop (J 2) loopFuel .self (.val tb) q t x y
  bnAssign r.1
  let ax ← r.2.1.result
  let b ← r.2.2.result
  pure (ax, b)

/-- `bn_egcd` with `ax` and `by` given (`bY` here); the result is their new content. -/
def bnEgcd (J : Junk) (a b ax bY : Bn) : BnM Bn (Bn × Bn) := do
  let x ← exec ax bnAssignZero
  let xPrev ← exec (uninit (J 0)) (bnInit (64 * x.count))
  let xPrev ← exec xPrev (bnAssignDigit 1)
  let y ← exec bY (bnAssignDigit 1)
  let yPrev ← exec (uninit (J 1)) (bnInit (64 * y.count))
  if bnIsZero a then do
    bnAssign b
    pure (x, y)
  else if bnIsZero b then do
    bnAssign a
    let x ← exec x (bnAssign xPrev)
    let y ← exec y (bnAssign yPrev)
    pure (x, y)
  else if BigNum.bnCmp a b = .eq then do
    bnAssign a
    let x ← exec x (bnAssign xPrev)
    pure (x, y)
  else if BigNum.bnCmp a b = .lt then do
    bnAssignInit b
    let tb ← exec (uninit (J 2)) (bnAssignInit a)
    -- only the low digits are exchanged: `x` keeps no digits and `y` one
    egcdMain (J 3) tb ⟨x.setDig 0 (y.dig 0), yPrev, false⟩ ⟨y.setDig 0 (x.dig 0), xPrev, false⟩
  else do
    bnAssignInit a
    let tb ← exec (uninit (J 2)) (bnAssignInit b)
    egcdMain (J 3) tb ⟨x, xPrev, false⟩ ⟨y, yPrev, false⟩

def bnModInv3 (J : Junk) (m : Arg Bn) : BnM Bn Unit := do
  let bn ← get
  if invArgsBad bn (m.get bn) then throw .einval
  else do
    let bits := invBits bn (m.get bn)
    let gcd ← exec (uninit (J 0)) (bnInit bits)
    let x ← exec (uninit (J 1)) (bnInit bits)
    let y ← exec (uninit (J 2)) (bnInit bits)
    let r ← runOn gcd (bnEgcd (J 3) bn (m.get bn) x y)
    if bnIsOne r.2 then do
      bnAssign (.val r.1.1)
      bnMod (J 4) m
    else throw .einval

/-! ## The invariant across `bn_mod_inv3`

Only the pair `y` may leave the normalised form.  It never reaches `bn`: `t` is assigned again
before the pair `x` uses it, and every sum and product ends by counting the digits. -/

def Shaped (b : Bn) : Prop := b.digits ≤ b.count ∧ b.count ≤ 32

theorem WF.shaped {b : Bn} (h : b.WF) : b.Shaped := ⟨h.digits_le, h.count_le⟩

theorem bnMult_wf (J : Junk) (n : Bn) {b : Bn} (hb : b.WF) : (stateOf (bnMult J (.val n) b)).WF := by
  unfold bnMult
  split
  · exact wf_zero_digits hb.count_le
  · simp only
    split
    · exact hb
    · rw [stateOf_ok]
      apply (bnUpdateDigits_spec _ _ _).1
      · rw [write_digits, write_count, bnInitDigits_digits, bnInitDigits_count]
        exact Nat.zero_le _
      · rw [write_count, bnInitDigits_count]
        exact hb.count_le

theorem bnAdd_shaped (n : Arg Bn) {b : Bn} (hb : b.Shaped) : (stateOf (bnAdd n b)).Shaped := by
  unfold bnAdd
  simp only
  split
  · exact ⟨by simpa using hb.1, by simpa using hb.2⟩
  · rw [stateOf_ok]
    exact (bnUpdateDigits_spec (by simpa using hb.1) (by simpa using hb.2) _).1.shaped

/-- What is known of the pair `x`. -/
def EgcdPair.WF (p : EgcdPair) : Prop := p.cur.WF ∧ p.prev.WF

/-- What is known of the pair `y`. -/
def EgcdPair.Shaped (p : EgcdPair) : Prop := p.cur.Shaped ∧ p.prev.Shaped

section Keeps

variable {σ : Type} {I : σ → Prop}

theorem keeps_of_refines {α : Type} {f : BnM Bn α} {g : BnM Num α} (h : Refines f g) :
    Keeps WF (fun _ => True) f := by
  intro b hb
  have hwf := (h b hb).2
  cases hr : f b with
  | ok a t =>
    rw [hr] at hwf
    exact ⟨trivial, hwf⟩
  | error e t =>
    rw [hr] at hwf
    exact hwf

theorem keeps_exec {α : Type} {f : BnM Bn α} {g : BnM Num α} (h : Refines f g) {t : Bn}
    (ht : t.WF) : Keeps I WF (exec t f : EStateM Err σ Bn) :=
  Keeps.exec ht (fun b hb => (h b hb).2)

theorem keeps_bnDiv (J : Junk) {d r : Bn} (hd : d.WF) (hr : r.WF) :
    Keeps WF (fun o : Option Bn => ∀ x, o = some x → x.WF) (bnDiv J (.val d) (.other r)) := by
  intro b hb
  have hrem : RemWF (.other r) := by
    rintro x ⟨⟩
    exact hr
  rcases bnDiv_refines J (argWF_val hd) hrem b hb with ⟨-, hwf, hval⟩
  cases hres : bnDiv J (.val d) (.other r) b with
  | ok a t =>
    rw [hres] at hwf hval
    refine ⟨?_, hwf⟩
    rintro x rfl
    exact hval x rfl
  | error e t =>
    rw [hres] at hwf
    exact hwf

theorem keeps_storePtr {p : Arg Bn} {x : Bn} (hx : x.WF) : Keeps WF Arg.WF (storePtr p x) := by
  cases p with
  | self => exact fun s _ => ⟨argWF_self, hx⟩
  | val y => exact fun s hs => ⟨argWF_val hx, hs⟩

theorem EgcdPair.keeps_step (J : Junk) {q t : Bn} (hq : q.WF) (ht : t.WF) {p : EgcdPair}
    (hp : p.WF) :
    Keeps I (fun r => r.1.WF ∧ r.2.WF) (p.step J q t : EStateM Err σ (Bn × EgcdPair)) := by
  apply Keeps.bind (keeps_exec (bnAssign_refines (argWF_val hq)) ht)
  intro t1 ht1
  apply Keeps.bind (keeps_exec (bnMult_refines J (argWF_val hp.1)) ht1)
  intro t2 ht2
  apply Keeps.bind (keeps_exec (bnAdd_refines (argWF_val ht2)) hp.2)
  intro prev hprev
  exact Keeps.pure ⟨ht2, hprev, hp.1⟩

theorem EgcdPair.keeps_step_shaped (J : Junk) {q t : Bn} (hq : q.WF) (ht : t.WF) {p : EgcdPair}
    (hp : p.Shaped) :
    Keeps I (fun r => r.1.WF ∧ r.2.Shaped) (p.step J q t : EStateM Err σ (Bn × EgcdPair)) := by
  apply Keeps.bind (keeps_exec (bnAssign_refines (argWF_val hq)) ht)
  intro t1 ht1
  apply Keeps.bind (Keeps.exec ht1 (fun b hb => bnMult_wf J p.cur hb))
  intro t2 ht2
  apply Keeps.bind (Keeps.exec hp.2 (fun b hb => bnAdd_shaped (.val t2) hb))
  intro prev hprev
  exact Keeps.pure ⟨ht2, hprev, hp.1⟩

theorem EgcdPair.keeps_result {p : EgcdPair} (hp : p.WF) :
    Keeps I Bn.WF (p.result : EStateM Err σ Bn) :=
  Keeps.ite (Keeps.pure hp.2) (keeps_exec (bnAssign_refines (argWF_val hp.2)) hp.1)

theorem EgcdPair.keeps_result_any (p : EgcdPair) :
    Keeps I (fun _ => True) (p.result : EStateM Err σ Bn) :=
  Keeps.ite (Keeps.pure trivial) (Keeps.exec trivial (fun _ _ => trivial))

end Keeps

theorem keeps_egcdLoop (J : Junk) (fuel : Nat) :
    ∀ {ta tb : Arg Bn} {q t : Bn} {x y : EgcdPair}, ta.WF → tb.WF → q.WF → t.WF → x.WF →
      y.Shaped → Keeps WF (fun r => r.1.WF ∧ r.2.1.WF) (egcdLoop J fuel ta tb q t x y) := by
  induction fuel with
  | zero =>
    intro ta tb q t x y _ _ _ _ _ _
    exact Keeps.throw
  | succ fuel ih =>
    intro ta tb q t x y hta htb hq ht hx hy
    apply Keeps.bind Keeps.get
    intro bn hbn
    apply Keeps.ite
    · exact Keeps.pure ⟨hta, hx⟩
    · apply Keeps.bind (keeps_exec (bnAssign_refines (argWF_val (hta.get hbn))) hq)
      intro q1 hq1
      apply Keeps.bind (Keeps.runOn hq1 (keeps_bnDiv _ (htb.get hbn) (hta.get hbn)))
      intro r hr
      have hrem : (r.1.getD (ta.get bn)).WF := by
        cases hr1 : r.1 with
        | none => exact hta.get hbn
        | some c => exact hr.1 c hr1
      apply Keeps.bind (keeps_storePtr hrem)
      intro ta1 hta1
      apply Keeps.bind (EgcdPair.keeps_step _ hr.2 ht hx)
      intro x1 hx1
      apply Keeps.bind (EgcdPair.keeps_step_shaped _ hr.2 hx1.1 hy)
      intro y1 hy1
      exact ih htb hta1 hr.2 hy1.1 hx1.2 hy1.2

theorem keeps_egcdMain (J : Junk) {tb : Bn} {x y : EgcdPair} (htb : tb.WF) (hx : x.WF)
    (hy : y.Shaped) : Keeps WF (fun r => r.1.WF) (egcdMain J tb x y) := by
  unfold egcdMain
  apply Keeps.bind Keeps.get
  intro bn hbn
  apply Keeps.bind (keeps_exec (bnInit_refines _) (uninit_wf _))
  intro q hq
  apply Keeps.bind (keeps_exec (bnInit_refines _) (uninit_wf _))
  intro t ht
  apply Keeps.bind (keeps_egcdLoop _ _ argWF_self (argWF_val htb) hq ht hx hy)
  intro r hr
  apply Keeps.bind (keeps_of_refines (bnAssign_refines hr.1))
  intro _ _
  apply Keeps.bind (EgcdPair.keeps_result hr.2)
  intro ax hax
  apply Keeps.bind (EgcdPair.keeps_result_any _)
  intro b _
  exact Keeps.pure hax

theorem keeps_bnEgcd (J : Junk) {a b ax bY : Bn} (ha : a.WF) (hb : b.WF) (hax : ax.WF)
    (hbY : bY.WF) : Keeps WF (fun r => r.1.WF) (bnEgcd J a b ax bY) := by
  have hone := bnAssignDigit_refines (by decide : (1 : Digit) ≠ 0)
  unfold bnEgcd
  apply Keeps.bind (P := fun x => x.WF ∧ x.digits = 0)
  · exact fun s hs => ⟨⟨wf_zero_digits hax.count_le, rfl⟩, hs⟩
  intro x hx
  apply Keeps.bind (keeps_exec (bnInit_refines _) (uninit_wf _))
  intro x0 hx0
  apply Keeps.bind (keeps_exec hone hx0)
  intro xPrev hxPrev
  apply Keeps.bind (keeps_exec hone hbY)
  intro y hy
  apply Keeps.bind (keeps_exec (bnInit_refines _) (uninit_wf _))
  intro yPrev hyPrev
  apply Keeps.ite
  · apply Keeps.bind (keeps_of_refines (bnAssign_refines (argWF_val hb)))
    intro _ _
    exact Keeps.pure hx.1
  apply Keeps.ite
  · apply Keeps.bind (keeps_of_refines (bnAssign_refines (argWF_val ha)))
    intro _ _
    apply Keeps.bind (keeps_exec (bnAssign_refines (argWF_val hxPrev)) hx.1)
    intro x1 hx1
    apply Keeps.bind (keeps_exec (bnAssign_refines (argWF_val hyPrev)) hy)
    intro y1 _
    exact Keeps.pure hx1
  apply Keeps.ite
  · apply Keeps.bind (keeps_of_refines (bnAssign_refines (argWF_val ha)))
    intro _ _
    apply Keeps.bind (keeps_exec (bnAssign_refines (argWF_val hxPrev)) hx.1)
    intro x1 hx1
    exact Keeps.pure hx1
  apply Keeps.ite
  · apply Keeps.bind (keeps_of_refines (bnAssignInit_refines (argWF_val hb)))
    intro _ _
    apply Keeps.bind (keeps_exec (bnAssignInit_refines (argWF_val ha)) (uninit_wf _))
    intro tb htb
    -- a write to the low digit keeps `x` without digits, and `y` with counters that fit
    have hx' : (x.setDig 0 (y.dig 0)).WF := ⟨hx.1.digits_le, hx.1.count_le, Or.inl hx.2⟩
    have hy' : (y.setDig 0 (x.dig 0)).Shaped := ⟨hy.digits_le, hy.count_le⟩
    exact keeps_egcdMain _ htb ⟨hx', hyPrev⟩ ⟨hy', hxPrev.shaped⟩
  · apply Keeps.bind (keeps_of_refines (bnAssignInit_refines (argWF_val ha)))
    intro _ _
    apply Keeps.bind (keeps_exec (bnAssignInit_refines (argWF_val hb)) (uninit_wf _))
    intro tb htb
    exact keeps_egcdMain _ htb ⟨hx.1, hxPrev⟩ ⟨hy.shaped, hyPrev.shaped⟩

theorem bnModInv3_wf (J : Junk) {m : Arg Bn} (hm : m.WF) {b : Bn} (hb : b.WF) :
    (stateOf (bnModInv3 J m b)).WF := by
  have hkeeps : Keeps WF (fun _ => True) (bnModInv3 J m) := by
    apply Keeps.bind Keeps.get
    intro bn hbn
    apply Keeps.ite
    · exact Keeps.throw
    apply Keeps.bind (keeps_exec (bnInit_refines _) (uninit_wf _))
    intro gcd hgcd
    apply Keeps.bind (keeps_exec (bnInit_refines _) (uninit_wf _))
    intro x hx
    apply Keeps.bind (keeps_exec (bnInit_refines _) (uninit_wf _))
    intro y hy
    apply Keeps.bind (Keeps.runOn hgcd (keeps_bnEgcd _ hbn (hm.get hbn) hx hy))
    intro r hr
    apply Keeps.ite
    · apply Keeps.bind (keeps_of_refines (bnAssign_refines (argWF_val hr.1)))
      intro _ _
      apply Keeps.bind (P := fun _ => True)
      · intro c hc
        have hself : RemWF .self := fun _ h => nomatch h
        have hwf := (bnDiv_refines (J 4) hm hself c hc).2.1
        show fold (Bn.bnDiv (J 4) m .self c) _ _
        cases hr : Bn.bnDiv (J 4) m .self c with
        | ok a t =>
          rw [hr] at hwf
          exact ⟨trivial, hwf⟩
        | error e t =>
          rw [hr] at hwf
          exact hwf
      · intro _ _
        exact Keeps.pure trivial
    · exact Keeps.throw
  exact hkeeps.stateOf hb

end Bn

end BigNum
