import Mathlib.Logic.Function.Basic
import Mathlib.Data.List.Nodup
import Mathlib.Algebra.Order.BigOperators.Group.List
import Mathlib.Algebra.Order.Ring.Nat

/-!
# Transition systems

Runs of a step function whose argument says which process moves and what its environment answers,
and weights of a family of processes.
-/

namespace Transition

variable {σ ι : Type}

/-- The state after the actions, when each of them can be taken. -/
def run (step : ι → σ → Option σ) : List ι → σ → Option σ
  | [], s => some s
  | a :: as, s => (step a s).bind (run step as)

/-- No process can move. -/
def Final (step : ι → σ → Option σ) (s : σ) : Prop := ∀ a, step a s = none

theorem run_cons {step : ι → σ → Option σ} {a : ι} {as : List ι} {s t : σ}
    (h : run step (a :: as) s = some t) : ∃ u, step a s = some u ∧ run step as u = some t :=
  Option.bind_eq_some_iff.mp h

theorem run_invariant {step : ι → σ → Option σ} {I : σ → Prop}
    (hstep : ∀ a s t, I s → step a s = some t → I t) :
    ∀ {as : List ι} {s t : σ}, I s → run step as s = some t → I t
  | [], _, _, hs, h => Option.some.inj h ▸ hs
  | _ :: _, _, _, hs, h => by
    rcases run_cons h with ⟨u, hu, h⟩
    exact run_invariant hstep (hstep _ _ _ hs hu) h

theorem run_length_le {step : ι → σ → Option σ} {I : σ → Prop} {rank : σ → Nat}
    (hstep : ∀ a s t, I s → step a s = some t → I t)
    (hrank : ∀ a s t, I s → step a s = some t → rank t < rank s) :
    ∀ {as : List ι} {s t : σ}, I s → run step as s = some t → as.length + rank t ≤ rank s
  | [], _, _, _, h => by
    rw [Option.some.inj h, List.length_nil]
    omega
  | a :: as, s, t, hs, h => by
    rcases run_cons h with ⟨u, hu, h⟩
    have hlt := hrank a s u hs hu
    have hle := run_length_le hstep hrank (hstep a s u hs hu) h
    rw [List.length_cons]
    omega

/-! ## Weights -/

variable {α β : Type}

/-- The weight of the processes of `l`. -/
def total (l : List α) (w : β → Nat) (f : α → β) : Nat := (l.map fun x => w (f x)).sum

theorem total_cons (x : α) (l : List α) (w : β → Nat) (f : α → β) :
    total (x :: l) w f = w (f x) + total l w f := by
  rw [total, List.map_cons, List.sum_cons, total]

variable [DecidableEq α]

theorem total_update_of_notMem {l : List α} {t : α} (ht : t ∉ l) (w : β → Nat) (f : α → β) (b : β) :
    total l w (Function.update f t b) = total l w f := by
  unfold total
  congr 1
  apply List.map_congr_left
  intro x hx
  have hne : x ≠ t := by
    rintro rfl
    exact ht hx
  rw [Function.update_of_ne hne]

theorem total_update {t : α} (w : β → Nat) (f : α → β) (b : β) : ∀ {l : List α}, l.Nodup → t ∈ l →
    total l w (Function.update f t b) + w (f t) = total l w f + w b
  | x :: l, hnodup, ht => by
    rw [total_cons, total_cons]
    rcases List.nodup_cons.mp hnodup with ⟨hx, hl⟩
    rcases List.mem_cons.mp ht with rfl | ht
    · rw [total_update_of_notMem hx, Function.update_self]
      omega
    · have hne : x ≠ t := by
        rintro rfl
        exact hx ht
      have htail := total_update w f b hl ht
      rw [Function.update_of_ne hne]
      omega

omit [DecidableEq α] in
theorem le_total {l : List α} {t : α} (ht : t ∈ l) (w : β → Nat) (f : α → β) : w (f t) ≤ total l w f :=
  List.le_sum_of_mem (List.mem_map_of_mem ht)

omit [DecidableEq α] in
theorem total_eq_zero {l : List α} {w : β → Nat} {f : α → β} (h : ∀ t ∈ l, w (f t) = 0) :
    total l w f = 0 := by
  refine List.sum_eq_zero ?_
  intro n hn
  rcases List.mem_map.mp hn with ⟨t, ht, rfl⟩
  exact h t ht

end Transition
