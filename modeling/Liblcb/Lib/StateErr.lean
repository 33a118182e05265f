import Mathlib.Logic.Basic
import Mathlib.Tactic.Basic

/-!
# State-passing code that keeps its state on an error

A C function that writes through a pointer and returns an error code is an `EStateM` action: the
state is the pointed-to object and survives a failure.  `fold` is the one eliminator all control
flow reduces to, so that an equation between two runs is checked by rewriting both to `fold`.
-/

namespace StateErr

variable {ε σ τ υ : Type} {α β γ : Type}

/-- Case analysis on how an action ended. -/
def fold (r : EStateM.Result ε σ α) (ok : α → σ → γ) (err : ε → σ → γ) : γ :=
  match r with
  | .ok a s => ok a s
  | .error e s => err e s

@[simp] theorem fold_ok (a : α) (s : σ) (ok : α → σ → γ) (err : ε → σ → γ) :
    fold (.ok a s) ok err = ok a s := rfl

@[simp] theorem fold_error (e : ε) (s : σ) (ok : α → σ → γ) (err : ε → σ → γ) :
    fold (.error e s) ok err = err e s := rfl

@[simp] theorem fold_fold (r : EStateM.Result ε σ α) (ok : α → σ → EStateM.Result ε τ β)
    (err : ε → σ → EStateM.Result ε τ β) (ok' : β → τ → γ) (err' : ε → τ → γ) :
    fold (fold r ok err) ok' err' =
      fold r (fun a s => fold (ok a s) ok' err') (fun e s => fold (err e s) ok' err') := by
  cases r <;> rfl

@[simp] theorem fold_ite (p : Prop) [Decidable p] (x y : EStateM.Result ε σ α)
    (ok : α → σ → γ) (err : ε → σ → γ) :
    fold (if p then x else y) ok err = if p then fold x ok err else fold y ok err := by
  split <;> rfl

theorem fold_eta (r : EStateM.Result ε σ α) : fold r .ok .error = r := by
  cases r <;> rfl

@[simp] theorem bind_apply (x : EStateM ε σ α) (f : α → EStateM ε σ β) (s : σ) :
    (x >>= f) s = fold (x s) (fun a t => f a t) (fun e t => .error e t) := rfl

@[simp] theorem map_apply (f : α → β) (x : EStateM ε σ α) (s : σ) :
    (f <$> x) s = fold (x s) (fun a t => .ok (f a) t) (fun e t => .error e t) := by
  show EStateM.map f x s = _
  unfold EStateM.map
  cases x s <;> rfl

@[simp] theorem pure_apply (a : α) (s : σ) : (pure a : EStateM ε σ α) s = .ok a s := rfl

@[simp] theorem throw_apply (e : ε) (s : σ) : (throw e : EStateM ε σ α) s = .error e s := rfl

@[simp] theorem get_apply (s : σ) : (get : EStateM ε σ σ) s = .ok s s := rfl

@[simp] theorem set_apply (s t : σ) : (set t : EStateM ε σ PUnit) s = .ok ⟨⟩ t := rfl

@[simp] theorem modify_apply (f : σ → σ) (s : σ) :
    (modify f : EStateM ε σ PUnit) s = .ok ⟨⟩ (f s) := rfl

@[simp] theorem ite_apply (p : Prop) [Decidable p] (x y : EStateM ε σ α) (s : σ) :
    (if p then x else y) s = if p then x s else y s := by
  split <;> rfl

theorem ite_apply_pos {p : Prop} [Decidable p] (hp : p) {x y : EStateM ε σ α} {s : σ} :
    (if p then x else y) s = x s := by
  rw [if_pos hp]

theorem ite_apply_neg {p : Prop} [Decidable p] (hp : ¬p) {x y : EStateM ε σ α} {s : σ} :
    (if p then x else y) s = y s := by
  rw [if_neg hp]

/-- Runs `act` on the object `t` instead of the current one; the final `t` is returned. -/
def runOn (t : τ) (act : EStateM ε τ α) : EStateM ε σ (α × τ) := fun s =>
  fold (act t) (fun a t => .ok (a, t) s) (fun e _ => .error e s)

/-- Runs `act` on a local object `t` and returns only what it leaves there. -/
def exec (t : τ) (act : EStateM ε τ α) : EStateM ε σ τ := fun s =>
  fold (act t) (fun _ t => .ok t s) (fun e _ => .error e s)

/-- Runs `act` on a component of the state. -/
def zoom (proj : σ → τ) (put : τ → σ → σ) (act : EStateM ε τ α) : EStateM ε σ α := fun s =>
  fold (act (proj s)) (fun a t => .ok a (put t s)) (fun e t => .error e (put t s))

@[simp] theorem runOn_apply (t : τ) (act : EStateM ε τ α) (s : σ) :
    runOn t act s = fold (act t) (fun a t => .ok (a, t) s) (fun e _ => .error e s) := rfl

@[simp] theorem exec_apply (t : τ) (act : EStateM ε τ α) (s : σ) :
    exec t act s = fold (act t) (fun _ t => .ok t s) (fun e _ => .error e s) := rfl

theorem bind_of_ok {x : EStateM ε σ α} {s t : σ} {a : α} (h : x s = .ok a t)
    (f : α → EStateM ε σ β) : (x >>= f) s = f a t := by
  rw [bind_apply, h, fold_ok]

theorem bind_of_error {x : EStateM ε σ α} {s t : σ} {e : ε} (h : x s = .error e t)
    (f : α → EStateM ε σ β) : (x >>= f) s = .error e t := by
  rw [bind_apply, h, fold_error]

theorem except_bind_of_ok {x : Except ε α} {a : α} (h : x = .ok a) (f : α → Except ε β) :
    (x >>= f) = f a := by
  rw [h]
  rfl

theorem except_bind_of_error {x : Except ε α} {e : ε} (h : x = .error e) (f : α → Except ε β) :
    (x >>= f) = .error e := by
  rw [h]
  rfl

theorem exec_bind_of_ok {act : EStateM ε τ α} {t t' : τ} {a : α} (h : act t = .ok a t')
    (f : τ → EStateM ε σ β) (s : σ) : (exec t act >>= f) s = f t' s := by
  rw [bind_apply, exec_apply, h, fold_ok, fold_ok]

@[simp] theorem zoom_apply (proj : σ → τ) (put : τ → σ → σ) (act : EStateM ε τ α) (s : σ) :
    zoom proj put act s =
      fold (act (proj s)) (fun a t => .ok a (put t s)) (fun e t => .error e (put t s)) := rfl

/-- A statement that is executed under a condition only. -/
def onlyIf (p : Prop) [Decidable p] (act : EStateM ε σ Unit) : EStateM ε σ Unit :=
  if p then act else pure ()

@[simp] theorem onlyIf_apply (p : Prop) [Decidable p] (act : EStateM ε σ Unit) (s : σ) :
    onlyIf p act s = if p then act s else .ok () s := by
  unfold onlyIf
  split <;> rfl

/-- The result of a run with its states seen through `φ` and its value through `ψ`. -/
def mapRes (φ : σ → τ) (ψ : α → β) (r : EStateM.Result ε σ α) : EStateM.Result ε τ β :=
  fold r (fun a s => .ok (ψ a) (φ s)) (fun e s => .error e (φ s))

@[simp] theorem mapRes_ok (φ : σ → τ) (ψ : α → β) (a : α) (s : σ) :
    mapRes φ ψ (.ok a s : EStateM.Result ε σ α) = .ok (ψ a) (φ s) := rfl

@[simp] theorem mapRes_error (φ : σ → τ) (ψ : α → β) (e : ε) (s : σ) :
    mapRes φ ψ (.error e s : EStateM.Result ε σ α) = .error e (φ s) := rfl

@[simp] theorem fold_mapRes (φ : σ → τ) (ψ : α → β) (r : EStateM.Result ε σ α)
    (ok : β → τ → γ) (err : ε → τ → γ) :
    fold (mapRes φ ψ r) ok err =
      fold r (fun a s => ok (ψ a) (φ s)) (fun e s => err e (φ s)) := by
  cases r <;> rfl

@[simp] theorem mapRes_fold (φ : υ → τ) (ψ : β → γ) (r : EStateM.Result ε σ α)
    (ok : α → σ → EStateM.Result ε υ β) (err : ε → σ → EStateM.Result ε υ β) :
    mapRes φ ψ (fold r ok err) =
      fold r (fun a s => mapRes φ ψ (ok a s)) (fun e s => mapRes φ ψ (err e s)) := by
  cases r <;> rfl

@[simp] theorem mapRes_ite (φ : σ → τ) (ψ : α → β) (p : Prop) [Decidable p]
    (x y : EStateM.Result ε σ α) :
    mapRes φ ψ (if p then x else y) = if p then mapRes φ ψ x else mapRes φ ψ y := by
  split <;> rfl

/-- The content of an option, or the error `e`. -/
def orThrow (e : ε) (o : Option α) : EStateM ε σ α :=
  match o with
  | none => throw e
  | some a => pure a

@[simp] theorem orThrow_none (e : ε) (s : σ) :
    (orThrow e none : EStateM ε σ α) s = .error e s := rfl

@[simp] theorem orThrow_some (e : ε) (a : α) (s : σ) :
    (orThrow e (some a) : EStateM ε σ α) s = .ok a s := rfl

theorem orThrow_map (φ : σ → τ) (f : α → β) (e : ε) (o : Option α) (s : σ) :
    orThrow e (o.map f) (φ s) = mapRes φ f (orThrow e o s) := by
  cases o <;> rfl

/-- The state a run leaves behind, whether it failed or not. -/
def stateOf (r : EStateM.Result ε σ α) : σ := fold r (fun _ s => s) (fun _ s => s)

@[simp] theorem stateOf_ok (a : α) (s : σ) : stateOf (.ok a s : EStateM.Result ε σ α) = s := rfl

@[simp] theorem stateOf_error (e : ε) (s : σ) :
    stateOf (.error e s : EStateM.Result ε σ α) = s := rfl

/-- What a run returned. -/
def valueOf (r : EStateM.Result ε σ α) : Except ε α := fold r (fun a _ => .ok a) (fun e _ => .error e)

@[simp] theorem valueOf_ok (a : α) (s : σ) :
    valueOf (.ok a s : EStateM.Result ε σ α) = .ok a := rfl

@[simp] theorem valueOf_error (e : ε) (s : σ) :
    valueOf (.error e s : EStateM.Result ε σ α) = .error e := rfl

/-! ## Runs that return -/

/-- The run returns and leaves a state with `R`. -/
def ReturnsIn (R : σ → Prop) (r : EStateM.Result ε σ Unit) : Prop := ∃ t, r = .ok () t ∧ R t

namespace ReturnsIn

variable {R S : σ → Prop}

theorem of_eq {r : EStateM.Result ε σ Unit} {t : σ} (h : r = .ok () t) (ht : R t) : ReturnsIn R r :=
  ⟨t, h, ht⟩

theorem mono {r : EStateM.Result ε σ Unit} (h : ReturnsIn R r) (hRS : ∀ t, R t → S t) :
    ReturnsIn S r := by
  obtain ⟨t, ht, hR⟩ := h
  exact ⟨t, ht, hRS t hR⟩

theorem bind {act : EStateM ε σ Unit} {f : Unit → EStateM ε σ Unit} {s : σ}
    (h : ReturnsIn R (act s)) (hf : ∀ t, R t → ReturnsIn S (f () t)) :
    ReturnsIn S ((act >>= f) s) := by
  obtain ⟨t, ht, hR⟩ := h
  rw [bind_of_ok ht]
  exact hf t hR

end ReturnsIn

/-- Two images of one action, whose states are seen through `φ` and through `ψ`. -/
def Images (φ : σ → τ) (ψ : σ → υ) (g : EStateM ε τ Unit) (k : EStateM ε υ Unit) : Prop :=
  ∃ f : EStateM ε σ Unit, (∀ s, g (φ s) = mapRes φ id (f s)) ∧ ∀ s, k (ψ s) = mapRes ψ id (f s)

/-- If the second image returns then so does the first, and what it leaves is the image of a state
that the second shows. -/
theorem Images.returnsIn {φ : σ → τ} {ψ : σ → υ} {g : EStateM ε τ Unit} {k : EStateM ε υ Unit}
    (h : Images φ ψ g k) {s : σ} {T : υ → Prop} (hk : ReturnsIn T (k (ψ s))) :
    ReturnsIn (fun t => ∃ u, φ u = t ∧ T (ψ u)) (g (φ s)) := by
  obtain ⟨f, hg, hk'⟩ := h
  obtain ⟨t, ht, hT⟩ := hk
  rw [hk'] at ht
  rw [hg]
  cases hr : f s with
  | ok a u =>
    rw [hr] at ht
    injection ht with _ hu
    subst hu
    exact ⟨φ u, rfl, u, rfl, hT⟩
  | error e u =>
    rw [hr] at ht
    nomatch ht

/-! ## Invariants of a run -/

/-- From a state with `I` the run ends in a state with `I`, and what it returns satisfies `P`. -/
def Keeps (I : σ → Prop) (P : α → Prop) (f : EStateM ε σ α) : Prop :=
  ∀ s, I s → fold (f s) (fun a t => P a ∧ I t) (fun _ t => I t)

namespace Keeps

variable {I : σ → Prop} {P : α → Prop} {Q : β → Prop}

theorem bind {f : EStateM ε σ α} {g : α → EStateM ε σ β} (hf : Keeps I P f)
    (hg : ∀ a, P a → Keeps I Q (g a)) : Keeps I Q (f >>= g) := by
  intro s hs
  have h := hf s hs
  rw [bind_apply]
  cases hr : f s with
  | ok a t =>
    rw [hr, fold_ok] at h
    exact hg a h.1 t h.2
  | error e t =>
    rw [hr, fold_error] at h
    exact h

theorem pure {a : α} (h : P a) : Keeps I P (Pure.pure a : EStateM ε σ α) := fun _ hs => ⟨h, hs⟩

theorem throw {e : ε} : Keeps I P (MonadExcept.throw e : EStateM ε σ α) := fun _ hs => hs

theorem get : Keeps I I (MonadState.get : EStateM ε σ σ) := fun _ hs => ⟨hs, hs⟩

theorem ite {p : Prop} [Decidable p] {f g : EStateM ε σ α} (hf : Keeps I P f) (hg : Keeps I P g) :
    Keeps I P (if p then f else g) := by
  split
  · exact hf
  · exact hg

theorem exec {K : τ → Prop} {t : τ} {act : EStateM ε τ α} (ht : K t)
    (hact : ∀ s, K s → K (stateOf (act s))) : Keeps I K (StateErr.exec t act : EStateM ε σ τ) := by
  intro s hs
  have h := hact t ht
  rw [exec_apply, fold_fold]
  cases hr : act t with
  | ok a u =>
    rw [hr] at h
    exact ⟨h, hs⟩
  | error e u => exact hs

theorem runOn {K : τ → Prop} {t : τ} {act : EStateM ε τ α} (ht : K t) (hact : Keeps K P act) :
    Keeps I (fun r => P r.1 ∧ K r.2) (StateErr.runOn t act : EStateM ε σ (α × τ)) := by
  intro s hs
  have h := hact t ht
  rw [runOn_apply, fold_fold]
  cases hr : act t with
  | ok a u =>
    rw [hr] at h
    exact ⟨h, hs⟩
  | error e u => exact hs

theorem stateOf {f : EStateM ε σ α} (h : Keeps I P f) {s : σ} (hs : I s) :
    I (StateErr.stateOf (f s)) := by
  have := h s hs
  cases hr : f s with
  | ok a t =>
    rw [hr] at this
    exact this.2
  | error e t =>
    rw [hr] at this
    exact this

end Keeps

end StateErr
