import Mathlib.Data.Nat.Init
import Mathlib.Logic.Relation

/-!
# Loops that get on

A loop whose every turn either ends it or lowers a rank of its state.  With more turns than the rank
it ends, and what it ends with does not depend on how many more; a turn may also have no outcome, and
then the loop has none.
-/

namespace Progress

variable {σ ρ : Type}

/-- What a turn leads to. -/
inductive Next (σ ρ : Type) where
  | again (s : σ)
  | done (r : ρ)

def loop (step : σ → Option (Next σ ρ)) : Nat → σ → Option ρ
  | 0, _ => none
  | fuel + 1, s =>
    match step s with
    | none => none
    | some (.again s') => loop step fuel s'
    | some (.done r) => some r

/-- The states a loop goes through. -/
def Reaches (step : σ → Option (Next σ ρ)) : σ → σ → Prop :=
  Relation.ReflTransGen fun s s' => step s = some (.again s')

/-- Every turn that goes on lowers the rank. -/
def Lowers (step : σ → Option (Next σ ρ)) (rank : σ → Nat) : Prop :=
  ∀ s s', step s = some (.again s') → rank s' < rank s

variable {step : σ → Option (Next σ ρ)} {rank : σ → Nat} {s s' : σ} {r : ρ} {fuel : Nat}

theorem loop_again (h : step s = some (.again s')) :
    loop step (fuel + 1) s = loop step fuel s' := by
  rw [loop, h]

theorem loop_done (h : step s = some (.done r)) : loop step (fuel + 1) s = some r := by
  rw [loop, h]

theorem loop_none (h : step s = none) : loop step fuel s = none := by
  cases fuel with
  | zero => rfl
  | succ fuel => rw [loop, h]

theorem loop_fuel (hlow : Lowers step rank) : ∀ {fuel fuel' : Nat} {s : σ}, rank s < fuel →
    rank s < fuel' → loop step fuel s = loop step fuel' s
  | 0, _, _, h, _ => absurd h (Nat.not_lt_zero _)
  | _ + 1, 0, _, _, h => absurd h (Nat.not_lt_zero _)
  | fuel + 1, fuel' + 1, s, h, h' => by
    cases hstep : step s with
    | none => rw [loop_none hstep, loop_none hstep]
    | some next =>
      cases next with
      | again s' =>
        have hlt := hlow s s' hstep
        rw [loop_again hstep, loop_again hstep]
        exact loop_fuel hlow (by omega) (by omega)
      | done r => rw [loop_done hstep, loop_done hstep]

theorem loop_ends : ∀ {fuel : Nat} {s : σ}, rank s < fuel →
    (∀ s', Reaches step s s' → step s' ≠ none) →
    (∀ s' s'', Reaches step s s' → step s' = some (.again s'') → rank s'' < rank s') →
    ∃ r, loop step fuel s = some r
  | 0, _, h, _, _ => absurd h (Nat.not_lt_zero _)
  | fuel + 1, s, h, hsome, hlow => by
    cases hstep : step s with
    | none => exact absurd hstep (hsome s .refl)
    | some next =>
      cases next with
      | done r => exact ⟨r, loop_done hstep⟩
      | again s' =>
        have hlt := hlow s s' .refl hstep
        rw [loop_again hstep]
        exact loop_ends (by omega) (fun t ht => hsome t (ht.head hstep))
          fun t t' ht => hlow t t' (ht.head hstep)

/-- The loop with as many turns as it can take. -/
def run (step : σ → Option (Next σ ρ)) (rank : σ → Nat) (s : σ) : Option ρ :=
  loop step (rank s + 1) s

theorem loop_eq_run (hlow : Lowers step rank) (h : rank s < fuel) :
    loop step fuel s = run step rank s := loop_fuel hlow h (Nat.lt_succ_self _)

theorem run_again (hlow : Lowers step rank) (h : step s = some (.again s')) :
    run step rank s = run step rank s' := by
  rw [run, loop_again h]
  exact loop_eq_run hlow (hlow s s' h)

theorem run_done (h : step s = some (.done r)) : run step rank s = some r := loop_done h

theorem run_none (h : step s = none) : run step rank s = none := loop_none h

theorem run_reaches (hlow : Lowers step rank) (h : Reaches step s s') :
    run step rank s = run step rank s' := by
  induction h with
  | refl => rfl
  | tail _ hstep ih => rw [ih, run_again hlow hstep]

theorem run_isSome_iff (hlow : Lowers step rank) :
    (∃ r, run step rank s = some r) ↔ ∀ s', Reaches step s s' → step s' ≠ none := by
  constructor
  · rintro ⟨r, hr⟩ s' hreach hnone
    rw [run_reaches hlow hreach, run_none hnone] at hr
    cases hr
  · intro h
    generalize hn : rank s = n
    induction n using Nat.strong_induction_on generalizing s with
    | _ n ih =>
      cases hstep : step s with
      | none => exact absurd hstep (h s .refl)
      | some next =>
        cases next with
        | done r => exact ⟨r, run_done hstep⟩
        | again s' =>
          have hlt := hlow s s' hstep
          rw [run_again hlow hstep]
          exact ih _ (by omega) (fun t ht => h t (ht.head hstep)) rfl

theorem run_ends {I : σ → Prop} (hlow : Lowers step rank) (hs : I s)
    (hkeep : ∀ s s', I s → step s = some (.again s') → I s') (h : run step rank s = some r) :
    ∃ s', I s' ∧ step s' = some (.done r) := by
  generalize hn : rank s = n
  induction n using Nat.strong_induction_on generalizing s with
  | _ n ih =>
    cases hstep : step s with
    | none =>
      rw [run_none hstep] at h
      cases h
    | some next =>
      cases next with
      | done r' =>
        rw [run_done hstep, Option.some.injEq] at h
        exact ⟨s, hs, by rw [hstep, h]⟩
      | again s' =>
        have hlt := hlow s s' hstep
        rw [run_again hlow hstep] at h
        exact ih _ (by omega) (hkeep s s' hs hstep) h rfl

theorem run_eq_some_iff (hlow : Lowers step rank) :
    run step rank s = some r ↔ ∃ s', Reaches step s s' ∧ step s' = some (.done r) := by
  constructor
  · intro h
    exact run_ends hlow .refl (fun _ _ hreach hstep => hreach.tail hstep) h
  · rintro ⟨s', hreach, hstep⟩
    rw [run_reaches hlow hreach, run_done hstep]

theorem Reaches.invariant {I : σ → Prop} (hs : I s)
    (hkeep : ∀ s s', I s → step s = some (.again s') → I s') (h : Reaches step s s') : I s' := by
  induction h with
  | refl => exact hs
  | tail _ hstep ih => exact hkeep _ _ ih hstep

theorem Reaches.simulated {τ ρ' : Type} {step' : τ → Option (Next τ ρ')} {R : σ → τ → Prop}
    (hsim : ∀ s s' t, R s t → step s = some (.again s') →
      ∃ t', step' t = some (.again t') ∧ R s' t')
    (h : Reaches step s s') {t : τ} (ht : R s t) : ∃ t', Reaches step' t t' ∧ R s' t' := by
  induction h with
  | refl => exact ⟨t, .refl, ht⟩
  | tail _ hstep ih =>
    obtain ⟨u, hu, hR⟩ := ih
    obtain ⟨u', hu', hR'⟩ := hsim _ _ u hR hstep
    exact ⟨u', hu.tail hu', hR'⟩

/-! ## Turns that may fail -/

variable {ε : Type} {turn : σ → Except ε (Next σ ρ)} {e : ε}

/-- The loop ends with the first error. -/
def catching (turn : σ → Except ε (Next σ ρ)) (s : σ) : Option (Next σ (Except ε ρ)) :=
  match turn s with
  | .error e => some (.done (.error e))
  | .ok (.again s') => some (.again s')
  | .ok (.done r) => some (.done (.ok r))

theorem catching_again : catching turn s = some (.again s') ↔ turn s = .ok (.again s') := by
  unfold catching
  split <;> simp_all

theorem catching_ok : catching turn s = some (.done (.ok r)) ↔ turn s = .ok (.done r) := by
  unfold catching
  split <;> simp_all

theorem catching_error : catching turn s = some (.done (.error e)) ↔ turn s = .error e := by
  unfold catching
  split <;> simp_all

theorem run_catching (hlow : Lowers (catching turn) rank) (s : σ) :
    ∃ r, run (catching turn) rank s = some r := by
  rw [run_isSome_iff hlow]
  intro s' _ hnone
  unfold catching at hnone
  split at hnone <;> cases hnone

end Progress
